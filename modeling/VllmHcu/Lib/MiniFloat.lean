import Mathlib.Algebra.Order.Field.Rat
import Mathlib.Data.Nat.Log
import Mathlib.Order.Monotone.Basic
import Mathlib.Tactic.Common
import Mathlib.Tactic.Linarith
import Mathlib.Tactic.Positivity
import Mathlib.Tactic.Ring

/-!
# Binary floating-point formats

The magnitude of a pattern with `m` mantissa bits is a multiple of the least
subnormal; `sig` counts it. Magnitudes grow with their patterns and are evenly
spaced between two patterns whose mantissas end in zeros, so rounding a pattern to
fewer bits rounds its value.
-/

namespace VllmHcu.MiniFloat

/-- The value of a nonnegative pattern, in units of the least subnormal. -/
def sig (m b : Nat) : Nat := if b < 2 ^ m then b else (2 ^ m + b % 2 ^ m) * 2 ^ (b / 2 ^ m - 1)

/-- `x / 2 ^ n` to the nearest integer, a tie to the even one. -/
def roundEven (n x : Nat) : Nat :=
  if 2 * (x % 2 ^ n) < 2 ^ n ∨ 2 * (x % 2 ^ n) = 2 ^ n ∧ x / 2 ^ n % 2 = 0 then x / 2 ^ n else x / 2 ^ n + 1

/-- The pattern with `m` mantissa bits nearest to a number of units: its leading `m + 1` bits, rounded. -/
def ofSig (m s : Nat) : Nat := (Nat.log2 s - m) * 2 ^ m + roundEven (Nat.log2 s - m) s

/-- Pattern `c` has a value nearest to `x` among the patterns up to `max`, and is even in a tie. -/
def NearestEven {α : Type*} [Ring α] [LinearOrder α] (v : Nat → α) (max : Nat) (x : α) (c : Nat) : Prop :=
  c ≤ max ∧ ∀ c' ≤ max, c' = c ∨ |x - v c| < |x - v c'| ∨ |x - v c| = |x - v c'| ∧ c % 2 = 0

/-! ## Values -/

variable {m : Nat}

theorem sig_of_lt {b : Nat} (h : b < 2 ^ m) : sig m b = b := if_pos h

theorem sig_of_le {b : Nat} (h : 2 ^ m ≤ b) : sig m b = (2 ^ m + b % 2 ^ m) * 2 ^ (b / 2 ^ m - 1) :=
  if_neg (by omega)

/-- The first binade is spaced like the subnormals. -/
theorem sig_of_lt_two {b : Nat} (h : b < 2 ^ (m + 1)) : sig m b = b := by
  by_cases hb : b < 2 ^ m
  · exact sig_of_lt hb
  · rw [Nat.pow_succ] at h
    have hdiv : b / 2 ^ m = 1 := Nat.div_eq_of_lt_le (by omega) (by omega)
    have hmod := Nat.div_add_mod b (2 ^ m)
    rw [hdiv] at hmod
    rw [sig_of_le (by omega), hdiv, Nat.sub_self, Nat.pow_zero]
    omega

theorem sig_succ (m b : Nat) : sig m (b + 1) = sig m b + 2 ^ (b / 2 ^ m - 1) := by
  have hpos : 0 < 2 ^ m := Nat.two_pow_pos m
  by_cases hb : b + 1 < 2 ^ m
  · rw [sig_of_lt hb, sig_of_lt (by omega), Nat.div_eq_of_lt (show b < 2 ^ m by omega)]
    rfl
  · by_cases hfirst : b < 2 ^ m
    · have heq : b + 1 = 2 ^ m := by omega
      rw [sig_of_le (by omega), sig_of_lt hfirst, heq, Nat.mod_self, Nat.div_self hpos, Nat.div_eq_of_lt hfirst]
      simp only [Nat.add_zero, Nat.sub_self, Nat.pow_zero, Nat.mul_one, Nat.zero_sub]
      omega
    · rw [sig_of_le (show 2 ^ m ≤ b + 1 by omega), sig_of_le (show 2 ^ m ≤ b by omega)]
      obtain ⟨e, he⟩ : ∃ e, b / 2 ^ m = e + 1 :=
        Nat.exists_eq_add_one_of_ne_zero (by
          have := Nat.div_pos (show 2 ^ m ≤ b by omega) hpos
          omega)
      have hlt := Nat.mod_lt b hpos
      have hb' : b = (e + 1) * 2 ^ m + b % 2 ^ m := by
        rw [← he, Nat.mul_comm]
        exact (Nat.div_add_mod b (2 ^ m)).symm
      by_cases hcarry : b % 2 ^ m + 1 = 2 ^ m
      · -- the mantissa overflows into the exponent
        have hnext : b + 1 = (e + 2) * 2 ^ m := by
          rw [show (e + 2) * 2 ^ m = (e + 1) * 2 ^ m + 2 ^ m by ring]
          omega
        have hmod : b % 2 ^ m = 2 ^ m - 1 := by omega
        rw [hnext, Nat.mul_mod_left, Nat.mul_div_cancel _ hpos, he, hmod]
        simp only [Nat.add_zero, Nat.add_sub_cancel, show e + 2 - 1 = e + 1 by omega]
        have : 2 ^ m + (2 ^ m - 1) + 1 = 2 * 2 ^ m := by omega
        calc 2 ^ m * 2 ^ (e + 1) = (2 ^ m + (2 ^ m - 1) + 1) * 2 ^ e := by rw [this]; ring
          _ = (2 ^ m + (2 ^ m - 1)) * 2 ^ e + 2 ^ e := by ring
      · have hdiv : (b + 1) / 2 ^ m = e + 1 := by
          refine Nat.div_eq_of_lt_le (by omega) ?_
          rw [show (e + 1 + 1) * 2 ^ m = (e + 1) * 2 ^ m + 2 ^ m by ring]
          omega
        have hmod : (b + 1) % 2 ^ m = b % 2 ^ m + 1 := by
          have := Nat.div_add_mod (b + 1) (2 ^ m)
          rw [hdiv, Nat.mul_comm] at this
          omega
        rw [hdiv, hmod, he, Nat.add_sub_cancel]
        ring

theorem sig_strictMono (m : Nat) : StrictMono (sig m) :=
  strictMono_nat_of_lt_succ fun b => by
    rw [sig_succ]
    have := Nat.two_pow_pos (b / 2 ^ m - 1)
    omega

/-- Between two patterns whose last `d ≤ m` bits are zero the values are evenly spaced. -/
theorem sig_add {d : Nat} (hd : d ≤ m) (q : Nat) {r : Nat} (hr : r ≤ 2 ^ d) :
    sig m (q * 2 ^ d + r) = sig m (q * 2 ^ d) + r * 2 ^ (q * 2 ^ d / 2 ^ m - 1) := by
  induction r with
  | zero => simp
  | succ r ih =>
    -- the exponent does not change before the next such pattern
    have hexp : (q * 2 ^ d + r) / 2 ^ m = q * 2 ^ d / 2 ^ m := by
      obtain ⟨k, rfl⟩ := Nat.exists_eq_add_of_le hd
      have hdiv : (q * 2 ^ d + r) / 2 ^ d = q := by
        rw [Nat.add_comm, Nat.add_mul_div_right _ _ (Nat.two_pow_pos d), Nat.div_eq_of_lt hr, Nat.zero_add]
      rw [Nat.pow_add, ← Nat.div_div_eq_div_mul, ← Nat.div_div_eq_div_mul, hdiv, Nat.mul_div_cancel _ (Nat.two_pow_pos d)]
    rw [← Nat.add_assoc, sig_succ, ih (by omega), hexp]
    ring

/-- A pattern widened by `d` mantissa bits. -/
theorem sig_widen (d c : Nat) : sig (m + d) (c * 2 ^ d) = sig m c * 2 ^ d := by
  have hpos := Nat.two_pow_pos d
  rw [sig, sig, Nat.pow_add]
  by_cases h : c < 2 ^ m
  · rw [if_pos h, if_pos ((Nat.mul_lt_mul_right hpos).mpr h)]
  · rw [if_neg h, if_neg (by rwa [Nat.mul_lt_mul_right hpos]), Nat.mul_mod_mul_right, Nat.mul_div_mul_right _ _ hpos]
    ring

/-- A normal pattern moved up by `k` binades. -/
theorem sig_scale (k : Nat) {b : Nat} (h : 2 ^ m ≤ b) : sig m (b + k * 2 ^ m) = 2 ^ k * sig m b := by
  have hpos := Nat.two_pow_pos m
  have hdiv : 0 < b / 2 ^ m := Nat.div_pos h hpos
  rw [sig_of_le (by omega), sig_of_le h, Nat.add_mul_mod_self_right, Nat.add_mul_div_right _ _ hpos,
    show b / 2 ^ m + k - 1 = k + (b / 2 ^ m - 1) by omega, Nat.pow_add]
  ring

/-- The first pattern of a binade. -/
theorem sig_first (m e : Nat) : sig m ((e + 1) * 2 ^ m) = 2 ^ m * 2 ^ e := by
  have hpos := Nat.two_pow_pos m
  rw [sig_of_le (by rw [Nat.succ_mul]; omega), Nat.mul_mod_left, Nat.mul_div_cancel _ hpos, Nat.add_zero, Nat.add_sub_cancel]

/-! ## Rounding -/

theorem roundEven_mul_add {n r : Nat} (q : Nat) (hr : r < 2 ^ n) :
    roundEven n (q * 2 ^ n + r) = if 2 * r < 2 ^ n ∨ 2 * r = 2 ^ n ∧ q % 2 = 0 then q else q + 1 := by
  have hmod : (q * 2 ^ n + r) % 2 ^ n = r := by
    rw [Nat.add_comm, Nat.add_mul_mod_self_right, Nat.mod_eq_of_lt hr]
  have hdiv : (q * 2 ^ n + r) / 2 ^ n = q := by
    rw [Nat.add_comm, Nat.add_mul_div_right _ _ (Nat.two_pow_pos n), Nat.div_eq_of_lt hr, Nat.zero_add]
  rw [roundEven, hmod, hdiv]

theorem roundEven_add_mul (n x : Nat) {k : Nat} (hk : k % 2 = 0) : roundEven n (x + k * 2 ^ n) = roundEven n x + k := by
  rw [roundEven, roundEven, Nat.add_mul_mod_self_right, Nat.add_mul_div_right _ _ (Nat.two_pow_pos n),
    show (x / 2 ^ n + k) % 2 = x / 2 ^ n % 2 by omega]
  split <;> omega

theorem roundEven_le {n x c : Nat} (h : x ≤ c * 2 ^ n) : roundEven n x ≤ c := by
  have hpos := Nat.two_pow_pos n
  have hmod := Nat.div_add_mod x (2 ^ n)
  have hdiv : x / 2 ^ n ≤ c := Nat.div_le_of_le_mul (by rwa [Nat.mul_comm])
  unfold roundEven
  split
  · exact hdiv
  · rename_i hup
    by_contra hgt
    have heq : x / 2 ^ n = c := by omega
    rw [heq, Nat.mul_comm] at hmod
    omega

theorem div_le_roundEven (n x : Nat) : x / 2 ^ n ≤ roundEven n x := by
  unfold roundEven
  split <;> omega

theorem roundEven_eq_zero {n x : Nat} : roundEven n x = 0 ↔ 2 * x ≤ 2 ^ n := by
  have hpos := Nat.two_pow_pos n
  by_cases hlt : x < 2 ^ n
  · have := roundEven_mul_add 0 hlt
    rw [Nat.zero_mul, Nat.zero_add] at this
    rw [this]
    split <;> omega
  · have := Nat.div_pos (Nat.le_of_not_lt hlt) hpos
    have := div_le_roundEven n x
    omega

/-- Half a unit less one, and one more if the quotient is odd, carries exactly when rounding goes up. -/
theorem roundEven_eq_carry {n : Nat} (hn : 0 < n) (x : Nat) :
    roundEven n x = (x + (2 ^ (n - 1) - 1) + x / 2 ^ n % 2) / 2 ^ n := by
  obtain ⟨k, rfl⟩ := Nat.exists_eq_add_one_of_ne_zero (Nat.ne_of_gt hn)
  have hpos := Nat.two_pow_pos k
  have hlt := Nat.mod_lt x (Nat.two_pow_pos (k + 1))
  have hmod := Nat.div_add_mod x (2 ^ (k + 1))
  rw [Nat.add_sub_cancel]
  unfold roundEven
  rw [Nat.pow_succ] at *
  generalize x / (2 ^ k * 2) = q at *
  generalize x % (2 ^ k * 2) = r at *
  generalize 2 ^ k = h at *
  rw [← hmod, show h * 2 * q + r + (h - 1) + q % 2 = r + (h - 1) + q % 2 + q * (h * 2) by ring,
    Nat.add_mul_div_right _ _ (by omega)]
  rcases Nat.mod_two_eq_zero_or_one q with hq | hq
  · split
    · rw [Nat.div_eq_of_lt (by omega), Nat.zero_add]
    · rw [Nat.div_eq_of_lt_le (show 1 * (h * 2) ≤ _ by omega) (by omega), Nat.add_comm]
  · split
    · rw [Nat.div_eq_of_lt (by omega), Nat.zero_add]
    · rw [Nat.div_eq_of_lt_le (show 1 * (h * 2) ≤ _ by omega) (by omega), Nat.add_comm]

/-! ## Nearest patterns -/

section
variable {α : Type*} [CommRing α] [LinearOrder α] [IsStrictOrderedRing α] {v : Nat → α} {x : α} {max : Nat}

/-- Of two neighbours `x` lies between, the nearer one is nearest of all. -/
theorem nearestEven_between (hv : StrictMono v) {q c : Nat} (hlo : v q ≤ x) (hhi : x ≤ v (q + 1))
    (hc : c = q ∧ (x - v q < v (q + 1) - x ∨ x - v q = v (q + 1) - x ∧ q % 2 = 0) ∨
      c = q + 1 ∧ (v (q + 1) - x < x - v q ∨ v (q + 1) - x = x - v q ∧ (q + 1) % 2 = 0)) (hmax : c ≤ max) :
    NearestEven v max x c := by
  refine ⟨hmax, ?_⟩
  intro c' _
  have hbelow : c' < q → x - v q < |x - v c'| := by
    intro h
    have := hv h
    rw [abs_of_nonneg (by linarith)]
    linarith
  have habove : q + 1 < c' → v (q + 1) - x < |x - v c'| := by
    intro h
    have := hv h
    rw [abs_of_nonpos (by linarith)]
    linarith
  have hq : |x - v q| = x - v q := abs_of_nonneg (sub_nonneg.mpr hlo)
  have hq1 : |x - v (q + 1)| = v (q + 1) - x := by
    rw [abs_of_nonpos (by linarith)]
    exact neg_sub _ _
  rcases hc with ⟨rfl, hnear⟩ | ⟨rfl, hnear⟩
  · rw [hq]
    rcases Nat.lt_trichotomy c' c with h | h | h
    · exact .inr (.inl (hbelow h))
    · exact .inl h
    · rcases Nat.lt_or_eq_of_le (Nat.succ_le_of_lt h) with h | h
      · have := habove h
        rcases hnear with hlt | ⟨heq, -⟩ <;> exact .inr (.inl (by linarith))
      · have h : c' = c + 1 := h.symm
        subst h
        rw [hq1]
        exact .inr hnear
  · rw [hq1]
    rcases Nat.lt_trichotomy c' q with h | h | h
    · have := hbelow h
      rcases hnear with hlt | ⟨heq, -⟩ <;> exact .inr (.inl (by linarith))
    · subst h
      rw [hq]
      exact .inr hnear
    · rcases Nat.lt_or_eq_of_le (Nat.succ_le_of_lt h) with h | h
      · exact .inr (.inl (habove h))
      · exact .inl h.symm

/-- Rounding a number of steps to the next pattern rounds the value. -/
theorem nearestEven_roundEven (hv : StrictMono v) {n q r : Nat} (hr : r < 2 ^ n) {δ : α} (hδ : 0 < δ)
    (hx : x = v q + r * δ) (hnext : v (q + 1) = v q + (2 ^ n : Nat) * δ)
    (hmax : roundEven n (q * 2 ^ n + r) ≤ max) : NearestEven v max x (roundEven n (q * 2 ^ n + r)) := by
  have hgap : v (q + 1) - x = ((2 ^ n : Nat) - r : α) * δ := by
    rw [hx, hnext]
    ring
  have hlow : x - v q = (r : α) * δ := by
    rw [hx]
    ring
  have hr' : (r : α) ≤ (2 ^ n : Nat) := by exact_mod_cast hr.le
  have hlo : v q ≤ x := by
    have := mul_nonneg (Nat.cast_nonneg (α := α) r) hδ.le
    rw [← sub_nonneg, hlow]
    exact this
  have hhi : x ≤ v (q + 1) := by
    rw [← sub_nonneg, hgap]
    exact mul_nonneg (sub_nonneg.mpr hr') hδ.le
  refine nearestEven_between hv hlo hhi ?_ hmax
  rw [roundEven_mul_add q hr, hgap, hlow]
  have hcast : ((2 ^ n : Nat) - r : α) = ((2 ^ n - r : Nat) : α) := (Nat.cast_sub hr.le).symm
  rw [hcast]
  split
  case isTrue h =>
    refine .inl ⟨rfl, ?_⟩
    rcases h with h | ⟨h, hq⟩
    · exact .inl (mul_lt_mul_of_pos_right (by exact_mod_cast (by omega : r < 2 ^ n - r)) hδ)
    · exact .inr ⟨by rw [show 2 ^ n - r = r by omega], hq⟩
  case isFalse h =>
    refine .inr ⟨rfl, ?_⟩
    rw [not_or, not_and] at h
    by_cases heq : 2 * r = 2 ^ n
    · exact .inr ⟨by rw [show 2 ^ n - r = r by omega], by have := h.2 heq; omega⟩
    · exact .inl (mul_lt_mul_of_pos_right (by exact_mod_cast (by omega : 2 ^ n - r < r)) hδ)

/-- From the largest value on the nearest pattern is the last. -/
theorem nearestEven_max (hv : StrictMono v) (h : v max ≤ x) : NearestEven v max x max := by
  refine ⟨Nat.le_refl _, ?_⟩
  intro c' hc'
  rcases Nat.lt_or_eq_of_le hc' with hlt | heq
  · have := hv hlt
    rw [abs_of_nonneg (sub_nonneg.mpr h), abs_of_nonneg (by linarith)]
    exact .inr (.inl (by linarith))
  · exact .inl heq

variable {u : α}

theorem scaled_strictMono (m k : Nat) (hu : 0 < u) : StrictMono fun c => (sig m c : α) * 2 ^ k * u := by
  intro c c' h
  have : (sig m c : α) < sig m c' := by exact_mod_cast sig_strictMono m h
  exact mul_lt_mul_of_pos_right (mul_lt_mul_of_pos_right this (by positivity)) hu

/-- A normal pattern `k` binades up, rounded to `d` bits fewer, is nearest in the narrower format. -/
theorem nearestEven_narrow (d k : Nat) (hu : 0 < u) {b : Nat} (hb : 2 ^ (m + d) ≤ b) (hmax : roundEven d b ≤ max) :
    NearestEven (fun c => (sig m c : α) * 2 ^ (k + d) * u) max (sig (m + d) (b + k * 2 ^ (m + d)) * u) (roundEven d b) := by
  have hdiv : b = b / 2 ^ d * 2 ^ d + b % 2 ^ d := by
    rw [Nat.mul_comm]
    exact (Nat.div_add_mod b (2 ^ d)).symm
  generalize b / 2 ^ d = q at hdiv
  have hr := Nat.mod_lt b (Nat.two_pow_pos d)
  generalize b % 2 ^ d = r at hdiv hr
  subst hdiv
  have hd : d ≤ m + d := Nat.le_add_left ..
  have hval := sig_add hd q hr.le
  have hnext := sig_add hd q (Nat.le_refl (2 ^ d))
  rw [← Nat.succ_mul, sig_widen, sig_widen] at hnext
  rw [sig_widen] at hval
  refine nearestEven_roundEven (scaled_strictMono m (k + d) hu) hr
    (δ := (2 ^ (q * 2 ^ d / 2 ^ (m + d) - 1) : Nat) * 2 ^ k * u) (by positivity) ?_ ?_ hmax
  · rw [sig_scale k hb, hval]
    push_cast
    ring
  · have hnext : (sig m (q + 1) : α) * 2 ^ d = sig m q * 2 ^ d + 2 ^ d * 2 ^ (q * 2 ^ d / 2 ^ (m + d) - 1) := by
      exact_mod_cast hnext
    push_cast
    calc (sig m (q + 1) : α) * 2 ^ (k + d) * u = (sig m (q + 1) * 2 ^ d) * (2 ^ k * u) := by ring
      _ = sig m q * 2 ^ (k + d) * u + 2 ^ d * (2 ^ (q * 2 ^ d / 2 ^ (m + d) - 1) * 2 ^ k * u) := by rw [hnext]; ring

/-- Below the normal patterns the code is the rounded number of its units. -/
theorem nearestEven_units (k : Nat) (hu : 0 < u) {s : Nat} (hs : s < 2 ^ m * 2 ^ k) (hmax : roundEven k s ≤ max) :
    NearestEven (fun c => (sig m c : α) * 2 ^ k * u) max (s * u) (roundEven k s) := by
  have hdiv : s = s / 2 ^ k * 2 ^ k + s % 2 ^ k := by
    rw [Nat.mul_comm]
    exact (Nat.div_add_mod s (2 ^ k)).symm
  have hq : s / 2 ^ k < 2 ^ m := Nat.div_lt_of_lt_mul (by rwa [Nat.mul_comm])
  generalize s / 2 ^ k = q at hdiv hq
  have hr := Nat.mod_lt s (Nat.two_pow_pos k)
  generalize s % 2 ^ k = r at hdiv hr
  subst hdiv
  have hpow : 2 ^ (m + 1) = 2 ^ m + 2 ^ m := by ring
  refine nearestEven_roundEven (scaled_strictMono m k hu) hr hu ?_ ?_ hmax
  · rw [sig_of_lt hq]
    push_cast
    ring
  · rw [sig_of_lt hq, sig_of_lt_two (by omega)]
    push_cast
    ring

end

end VllmHcu.MiniFloat
