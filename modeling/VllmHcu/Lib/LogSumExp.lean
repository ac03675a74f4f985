import Mathlib.Analysis.SpecialFunctions.Log.Basic
import Mathlib.Algebra.BigOperators.Field

/-!
# Merging partial softmax sums

A partial result over some of the keys is its normalised output with the
logarithm of its denominator, minus infinity where it has no keys. Weighted by
the exponentials of the logarithms, partial results add up.
-/

namespace VllmHcu.LogSumExp

/-- A logarithm of a sum of exponentials, `⊥` for the empty sum. -/
abbrev Lse := WithBot ℝ

/-- The exponential. -/
noncomputable def weight : Lse → ℝ
  | ⊥ => 0
  | (x : ℝ) => Real.exp x

/-- The logarithm of a sum that is not negative. -/
noncomputable def ofWeight (w : ℝ) : Lse := if 0 < w then ((Real.log w : ℝ) : Lse) else ⊥

@[simp] theorem weight_bot : weight ⊥ = 0 := rfl

@[simp] theorem weight_coe (x : ℝ) : weight (x : Lse) = Real.exp x := rfl

theorem weight_nonneg (l : Lse) : 0 ≤ weight l := by
  induction l using WithBot.recBotCoe with
  | bot => exact le_refl 0
  | coe x => exact (Real.exp_pos x).le

theorem weight_ofWeight {w : ℝ} (h : 0 ≤ w) : weight (ofWeight w) = w := by
  unfold ofWeight
  split
  · rename_i hpos
    rw [weight_coe, Real.exp_log hpos]
  · rename_i hnot
    rw [weight_bot]
    linarith

/-- `torch.logaddexp` -/
noncomputable def logaddexp (a b : Lse) : Lse := ofWeight (weight a + weight b)

theorem weight_logaddexp (a b : Lse) : weight (logaddexp a b) = weight a + weight b :=
  weight_ofWeight (add_nonneg (weight_nonneg a) (weight_nonneg b))

/-- The combination of the partial results of `ranks` ranks. -/
noncomputable def combine (ranks : Nat) (out : Nat → ℝ) (lse : Nat → Lse) : ℝ :=
  (∑ r ∈ Finset.range ranks, out r * weight (lse r)) / ∑ r ∈ Finset.range ranks, weight (lse r)

/-- Partial results with numerators `num` and denominators `den` combine to the quotient of the sums. -/
theorem combine_eq {ranks : Nat} {out : Nat → ℝ} {lse : Nat → Lse} {num den : Nat → ℝ}
    (hnum : ∀ r < ranks, out r * weight (lse r) = num r) (hden : ∀ r < ranks, weight (lse r) = den r) :
    combine ranks out lse = (∑ r ∈ Finset.range ranks, num r) / ∑ r ∈ Finset.range ranks, den r := by
  rw [combine, Finset.sum_congr rfl fun r hr => hnum r (Finset.mem_range.mp hr),
    Finset.sum_congr rfl fun r hr => hden r (Finset.mem_range.mp hr)]

end VllmHcu.LogSumExp
