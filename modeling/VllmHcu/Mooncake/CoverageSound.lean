import Mathlib.Algebra.Order.Ring.Nat
import Mathlib.Tactic.Ring
import VllmHcu.Mooncake.Regions

/-!
# Coverage over the producer ranks

`tp_coverage`: over the producer ranks paired with a consumer rank, a sharded
cache delivers every byte of the payload once and from its own global position,
and a replicated one is sent by exactly one of them, whole.
-/

namespace VllmHcu.Mooncake

/-! ## The transfer topology -/

/-- `tp_ratio` on a producer of `tpSize` ranks: the quotient of the sizes,
negated where the consumer has more ranks. -/
structure RatioOf (tpRatio : Nat → Int) (tpSize : Nat) : Prop where
  quotient : ∀ remoteTpSize, remoteTpSize ∣ tpSize → tpRatio remoteTpSize = (tpSize / remoteTpSize : Nat)
  negated : ∀ remoteTpSize, tpSize ∣ remoteTpSize → tpSize < remoteTpSize →
    tpRatio remoteTpSize = -((remoteTpSize / tpSize : Nat) : Int)

/-- The handshake pairs producer rank `p` with consumer rank `d`. -/
def Paired (P D p d : Nat) : Prop := if D ≤ P then p / (P / D) = d else d / (D / P) = p

/-- The two ratios that are left: `D` divides `P`, or `P` divides a larger `D`. -/
theorem ratio_cases {P D : Nat} {tpRatio : Nat → Int} (hP : 0 < P) (hD : 0 < D) (hdvd : D ∣ P ∨ P ∣ D)
    (hr : RatioOf tpRatio P) :
    (∃ m, 0 < m ∧ P = D * m ∧ tpRatio D = m ∧ ∀ p d, Paired P D p d ↔ p / m = d) ∨
    (∃ m, 0 < m ∧ D = P * m ∧ tpRatio D = -(m : Int) ∧ ∀ p d, Paired P D p d ↔ d / m = p) := by
  have hquot : D ∣ P → ∃ m, 0 < m ∧ P = D * m ∧ tpRatio D = m ∧ ∀ p d, Paired P D p d ↔ p / m = d := by
    rintro ⟨m, rfl⟩
    have hm : D * m / D = m := Nat.mul_div_cancel_left m hD
    refine ⟨m, Nat.pos_of_mul_pos_left hP, rfl, ?_, ?_⟩
    · rw [hr.quotient D ⟨m, rfl⟩, hm]
    · intro p d
      unfold Paired
      rw [if_pos (Nat.le_of_dvd hP ⟨m, rfl⟩), hm]
  by_cases hle : D ∣ P
  · exact Or.inl (hquot hle)
  · right
    have hPD : P ∣ D := hdvd.resolve_left hle
    have hlt : P < D := by
      refine Nat.lt_of_le_of_ne (Nat.le_of_dvd hD hPD) ?_
      rintro rfl
      exact hle (dvd_refl P)
    obtain ⟨m, rfl⟩ := hPD
    have hm : P * m / P = m := Nat.mul_div_cancel_left m hP
    refine ⟨m, Nat.pos_of_mul_pos_left hD, rfl, ?_, ?_⟩
    · rw [hr.negated (P * m) ⟨m, rfl⟩ hlt, hm]
    · intro p d
      unfold Paired
      rw [if_neg (by omega), hm]

section
variable {topo : TransferTopology} {D d a b m : Nat}

theorem plan_of_quotient (hm : 0 < m) (hr : topo.tpRatio D = m) (replicated : Bool) :
    computeSenderTransferPlan topo d D a b replicated =
      if replicated then ⟨topo.tpRank % m == 0, 0, 0, a⟩ else ⟨true, 0, topo.tpRank % m * a, a⟩ := by
  unfold computeSenderTransferPlan
  rw [hr]
  by_cases h1 : (m : Int) = 1
  · have : m = 1 := by omega
    subst this
    cases replicated <;> simp [Nat.mod_one]
  · simp [h1, hm]

theorem plan_of_negated (hm : 0 < m) (hr : topo.tpRatio D = -(m : Int)) (replicated : Bool) :
    computeSenderTransferPlan topo d D a b replicated =
      if replicated then ⟨true, 0, 0, a⟩ else ⟨true, d % m * b, 0, b⟩ := by
  unfold computeSenderTransferPlan
  have h1 : ¬ -(m : Int) = 1 := by omega
  rw [hr]
  simp [h1]

end

/-! ## Accepted lengths -/

theorem validate_spec {L R : List TransferRegion} {topo : TransferTopology} {D : Nat} {replicated : Bool}
    (h : validateAsymmetricRegionLengths L R topo D replicated = none) {l r : TransferRegion} (hm : (l, r) ∈ L.zip R) :
    (replicated = true → l.kvBlockLen = r.kvBlockLen) ∧
    (replicated = false → 0 < topo.tpRatio D → (r.kvBlockLen : Int) = l.kvBlockLen * topo.tpRatio D) ∧
    (replicated = false → topo.tpRatio D < 0 → (l.kvBlockLen : Int) = r.kvBlockLen * -topo.tpRatio D) := by
  unfold validateAsymmetricRegionLengths at h
  dsimp only at h
  split at h
  · cases h
  · obtain ⟨idx, hidx⟩ := List.getElem?_of_mem hm
    have hz : ((l, r), idx) ∈ (L.zip R).zipIdx := List.mem_zipIdx_iff_getElem?.mpr hidx
    have hc := List.findSome?_eq_none_iff.mp h _ hz
    dsimp only at hc
    cases replicated with
    | true =>
      simp only [if_true] at hc
      split at hc
      · cases hc
      · rename_i heq
        exact ⟨fun _ => not_not.mp heq, fun h => (by cases h), fun h => (by cases h)⟩
    | false =>
      simp only [Bool.false_eq_true, if_false] at hc
      refine ⟨fun h => (by cases h), ?_, ?_⟩
      · intro _ hpos
        split at hc
        · rename_i h1
          split at hc
          · cases hc
          · rename_i heq
            rw [h1, Int.mul_one, not_not.mp heq]
        · split at hc
          · cases hc
          · rename_i heq
            exact not_not.mp heq
      · intro _ hneg
        rw [if_neg (by omega), if_neg (by omega)] at hc
        split at hc
        · cases hc
        · rename_i heq
          exact not_not.mp heq

/-! ## Bytes -/

/-- The plan writes byte `x` of the consumer's payload. -/
def TransferPlan.Writes (plan : TransferPlan) (x : Nat) : Prop :=
  plan.shouldTransfer = true ∧ plan.dstRegionOffset ≤ x ∧ x < plan.dstRegionOffset + plan.transferLen

/-- The plan copies from and to one global position, inside both payloads. -/
structure TransferPlan.Exact (plan : TransferPlan) (p d : Nat) (l r : TransferRegion) : Prop where
  sends : plan.shouldTransfer = true
  inSource : plan.srcRegionOffset + plan.transferLen ≤ l.kvBlockLen
  inDestination : plan.dstRegionOffset + plan.transferLen ≤ r.kvBlockLen
  position : p * l.kvBlockLen + plan.srcRegionOffset = d * r.kvBlockLen + plan.dstRegionOffset

theorem mod_mul_add_le {m n k : Nat} (hm : 0 < m) : k % m * n + n ≤ n * m := by
  rw [← Nat.add_one_mul, Nat.mul_comm n m]
  exact Nat.mul_le_mul_right n (Nat.mod_lt k hm)

section
variable {p d m : Nat} {l r : TransferRegion}

theorem exact_of_quotient (hm : 0 < m) (hlen : r.kvBlockLen = l.kvBlockLen * m) (hp : p / m = d) :
    (⟨true, 0, p % m * l.kvBlockLen, l.kvBlockLen⟩ : TransferPlan).Exact p d l r := by
  refine ⟨rfl, by simp, ?_, ?_⟩
  · rw [hlen]
    exact mod_mul_add_le hm
  · have hdiv := Nat.div_add_mod p m
    rw [hp] at hdiv
    calc p * l.kvBlockLen + 0
      _ = (m * d + p % m) * l.kvBlockLen := by rw [hdiv, Nat.add_zero]
      _ = d * r.kvBlockLen + p % m * l.kvBlockLen := by rw [hlen]; ring

theorem exact_of_negated (hm : 0 < m) (hlen : l.kvBlockLen = r.kvBlockLen * m) (hp : d / m = p) :
    (⟨true, d % m * r.kvBlockLen, 0, r.kvBlockLen⟩ : TransferPlan).Exact p d l r := by
  refine ⟨rfl, ?_, by simp, ?_⟩
  · rw [hlen]
    exact mod_mul_add_le hm
  · have hdiv := Nat.div_add_mod d m
    rw [hp] at hdiv
    calc p * l.kvBlockLen + d % m * r.kvBlockLen
      _ = (m * p + d % m) * r.kvBlockLen := by rw [hlen]; ring
      _ = d * r.kvBlockLen + 0 := by rw [hdiv, Nat.add_zero]

theorem writes_of_quotient (hlen : r.kvBlockLen = l.kvBlockLen * m) {x : Nat} (hx : x < r.kvBlockLen) :
    (p / m = d ∧ p % m * l.kvBlockLen ≤ x ∧ x < p % m * l.kvBlockLen + l.kvBlockLen) ↔
      p = d * m + x / l.kvBlockLen := by
  have hl : 0 < l.kvBlockLen := by
    apply Nat.pos_of_ne_zero
    intro h0
    rw [hlen, h0, Nat.zero_mul] at hx
    exact absurd hx (Nat.not_lt_zero x)
  have hk : x / l.kvBlockLen < m := by
    rw [Nat.div_lt_iff_lt_mul hl, Nat.mul_comm, ← hlen]
    exact hx
  constructor
  · rintro ⟨hp, h1, h2⟩
    have hmod : p % m = x / l.kvBlockLen := by
      symm
      apply Nat.div_eq_of_lt_le
      · exact h1
      · rw [Nat.add_one_mul]
        exact h2
    rw [← hp, ← hmod, Nat.mul_comm]
    exact (Nat.div_add_mod p m).symm
  · rintro rfl
    have hm : 0 < m := (Nat.zero_le _).trans_lt hk
    have hdiv : (d * m + x / l.kvBlockLen) / m = d := by
      rw [Nat.mul_comm, Nat.mul_add_div hm, Nat.div_eq_of_lt hk, Nat.add_zero]
    have hmod : (d * m + x / l.kvBlockLen) % m = x / l.kvBlockLen := by
      rw [Nat.mul_comm, Nat.mul_add_mod, Nat.mod_eq_of_lt hk]
    rw [hdiv, hmod]
    exact ⟨rfl, Nat.div_mul_le_self x _, Nat.lt_div_mul_add hl⟩

end

/-! ## Coverage -/

/-- The plan of producer rank `p` for consumer rank `d`. -/
def planAt (tpRatio : Nat → Int) (D : Nat) (replicated : Bool) (l r : TransferRegion) (p d : Nat) : TransferPlan :=
  computeSenderTransferPlan ⟨p, tpRatio⟩ d D l.kvBlockLen r.kvBlockLen replicated

/-- What the plans of all producer ranks do for one region pair and one consumer rank. -/
structure Covers (P D : Nat) (tpRatio : Nat → Int) (replicated : Bool) (l r : TransferRegion) (d : Nat) : Prop where
  once : replicated = false → ∀ x < r.kvBlockLen,
    ∃! p, p < P ∧ Paired P D p d ∧ (planAt tpRatio D replicated l r p d).Writes x
  exact_bytes : replicated = false → ∀ p, Paired P D p d → (planAt tpRatio D replicated l r p d).Exact p d l r
  oneSender : replicated = true →
    ∃! p, p < P ∧ Paired P D p d ∧ (planAt tpRatio D replicated l r p d).shouldTransfer = true
  whole : replicated = true → ∀ p, (planAt tpRatio D replicated l r p d).srcRegionOffset = 0 ∧
    (planAt tpRatio D replicated l r p d).dstRegionOffset = 0 ∧
    (planAt tpRatio D replicated l r p d).transferLen = l.kvBlockLen ∧ l.kvBlockLen = r.kvBlockLen

section
variable {P D d m : Nat} {tpRatio : Nat → Int} {replicated : Bool} {l r : TransferRegion}

theorem covers_of_quotient (hm : 0 < m) (hd : d < D) (hPm : P = D * m) (hr : tpRatio D = m)
    (hpair : ∀ p d, Paired P D p d ↔ p / m = d) (hrep : replicated = true → l.kvBlockLen = r.kvBlockLen)
    (hlen : replicated = false → r.kvBlockLen = l.kvBlockLen * m) : Covers P D tpRatio replicated l r d := by
  have hplan := fun p => @plan_of_quotient ⟨p, tpRatio⟩ D d l.kvBlockLen r.kvBlockLen m hm hr replicated
  have hsharded : replicated = false → ∀ p, planAt tpRatio D replicated l r p d =
      ⟨true, 0, p % m * l.kvBlockLen, l.kvBlockLen⟩ := fun hs p => (hplan p).trans (if_neg (by simp [hs]))
  have hwhole : replicated = true → ∀ p, planAt tpRatio D replicated l r p d = ⟨p % m == 0, 0, 0, l.kvBlockLen⟩ :=
    fun hs p => (hplan p).trans (if_pos hs)
  have hbelow : ∀ k < m, d * m + k < P := by
    intro k hk
    calc d * m + k
      _ < (d + 1) * m := by rw [Nat.add_one_mul]; omega
      _ ≤ P := by rw [hPm]; exact Nat.mul_le_mul_right m hd
  refine ⟨?_, ?_, ?_, ?_⟩
  · intro hs x hx
    have hiff := fun p => writes_of_quotient (p := p) (d := d) (hlen hs) hx
    simp only [hsharded hs, hpair, TransferPlan.Writes, true_and]
    have hk : x / l.kvBlockLen < m := by
      rw [hlen hs] at hx
      exact Nat.div_lt_of_lt_mul hx
    refine ⟨d * m + x / l.kvBlockLen, ⟨hbelow _ hk, (hiff _).mpr rfl⟩, ?_⟩
    rintro p ⟨_, hp⟩
    exact (hiff p).mp hp
  · intro hs p hp
    rw [hsharded hs]
    exact exact_of_quotient hm (hlen hs) ((hpair p d).mp hp)
  · intro hs
    simp only [hwhole hs, hpair, beq_iff_eq]
    refine ⟨d * m, ⟨by simpa using hbelow 0 hm, Nat.mul_div_cancel d hm, Nat.mul_mod_left d m⟩, ?_⟩
    rintro p ⟨_, hp, hz⟩
    have hdiv := Nat.div_add_mod p m
    rw [hp, hz, Nat.mul_comm, Nat.add_zero] at hdiv
    exact hdiv.symm
  · intro hs p
    rw [hwhole hs]
    exact ⟨rfl, rfl, rfl, hrep hs⟩

theorem covers_of_negated (hm : 0 < m) (hd : d < D) (hDm : D = P * m) (hr : tpRatio D = -(m : Int))
    (hpair : ∀ p d, Paired P D p d ↔ d / m = p) (hrep : replicated = true → l.kvBlockLen = r.kvBlockLen)
    (hlen : replicated = false → l.kvBlockLen = r.kvBlockLen * m) : Covers P D tpRatio replicated l r d := by
  have hplan := fun p => @plan_of_negated ⟨p, tpRatio⟩ D d l.kvBlockLen r.kvBlockLen m hm hr replicated
  have hsharded : replicated = false → ∀ p, planAt tpRatio D replicated l r p d =
      ⟨true, d % m * r.kvBlockLen, 0, r.kvBlockLen⟩ := fun hs p => (hplan p).trans (if_neg (by simp [hs]))
  have hwhole : replicated = true → ∀ p, planAt tpRatio D replicated l r p d = ⟨true, 0, 0, l.kvBlockLen⟩ :=
    fun hs p => (hplan p).trans (if_pos hs)
  have hbelow : d / m < P := Nat.div_lt_of_lt_mul (by rw [Nat.mul_comm, ← hDm]; exact hd)
  refine ⟨?_, ?_, ?_, ?_⟩
  · intro hs x hx
    simp only [hsharded hs, hpair, TransferPlan.Writes]
    refine ⟨d / m, ⟨hbelow, rfl, trivial, Nat.zero_le x, by rw [Nat.zero_add]; exact hx⟩, ?_⟩
    rintro p ⟨_, hp, _⟩
    exact hp.symm
  · intro hs p hp
    rw [hsharded hs]
    exact exact_of_negated hm (hlen hs) ((hpair p d).mp hp)
  · intro hs
    simp only [hwhole hs, hpair]
    refine ⟨d / m, ⟨hbelow, rfl, trivial⟩, ?_⟩
    rintro p ⟨_, hp, _⟩
    exact hp.symm
  · intro hs p
    rw [hwhole hs]
    exact ⟨rfl, rfl, rfl, hrep hs⟩

end

/-- The paired producer ranks cover the payload of every accepted region pair. -/
theorem tp_coverage {P D : Nat} (hP : 0 < P) (hdvd : D ∣ P ∨ P ∣ D) {tpRatio : Nat → Int} (hr : RatioOf tpRatio P)
    {L R : List TransferRegion} {replicated : Bool} {rank : Nat}
    (hval : validateAsymmetricRegionLengths L R ⟨rank, tpRatio⟩ D replicated = none) {l r : TransferRegion}
    (hm : (l, r) ∈ L.zip R) {d : Nat} (hd : d < D) : Covers P D tpRatio replicated l r d := by
  have hspec := validate_spec hval hm
  dsimp only at hspec
  obtain ⟨hrep, hquot, hneg⟩ := hspec
  rcases ratio_cases hP (by omega) hdvd hr with ⟨m, hm, hPm, hratio, hpair⟩ | ⟨m, hm, hDm, hratio, hpair⟩
  · refine covers_of_quotient hm hd hPm hratio hpair hrep ?_
    intro hs
    have hlen := hquot hs (by rw [hratio]; exact_mod_cast hm)
    rw [hratio] at hlen
    exact_mod_cast hlen
  · refine covers_of_negated hm hd hDm hratio hpair hrep ?_
    intro hs
    have hlen := hneg hs (by rw [hratio]; omega)
    rw [hratio, neg_neg] at hlen
    exact_mod_cast hlen

/-- Four producer ranks, two consumer ranks, sharded. -/
theorem tp_coverage_four_two :
    Covers 4 2 (fun D => if D ∣ 4 then (4 / D : Nat) else -((D / 4 : Nat) : Int)) false
      ⟨"layer", 0, 1, 8, 8, 0, none⟩ ⟨"layer", 0, 1, 16, 16, 0, none⟩ 1 := by
  have hr : RatioOf (fun D => if D ∣ 4 then (4 / D : Nat) else -((D / 4 : Nat) : Int)) 4 := by
    constructor
    · intro D hD
      exact if_pos hD
    · intro D hD hlt
      exact if_neg fun h => absurd (Nat.le_of_dvd (by decide) h) (by omega)
  have hval : validateAsymmetricRegionLengths [⟨"layer", 0, 1, 8, 8, 0, none⟩] [⟨"layer", 0, 1, 16, 16, 0, none⟩]
      ⟨0, fun D => if D ∣ 4 then (4 / D : Nat) else -((D / 4 : Nat) : Int)⟩ 2 false = none := by decide
  exact tp_coverage (by decide) (Or.inl ⟨2, rfl⟩) hr hval List.mem_cons_self (by decide)

end VllmHcu.Mooncake
