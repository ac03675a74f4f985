import VllmHcu.Lib.Cut
import VllmHcu.Sparse.Select

/-!
# Both searches find the key at the cut

The radix passes fix the key that cuts the budget off one byte at a time. The
register-resident kernels narrow a bracket around it, whichever pivots they try.
The signed keys of the one are the unsigned keys of the other, shifted.
-/

namespace VllmHcu.Sparse

/-! ## The two keys -/

theorem maskLow_eq : 0x7FFFFFFF#32 = BitVec.cons false (BitVec.allOnes 31) := by decide

theorem signBit_eq : 0x80000000#32 = BitVec.cons true 0#31 := by decide

theorem toNat_cons (b : Bool) (z : BitVec 31) : (BitVec.cons b z).toNat = (if b then 2 ^ 31 else 0) + z.toNat := by
  rw [BitVec.toNat_cons']
  cases b <;> simp

theorem toInt_cons (b : Bool) (z : BitVec 31) :
    (BitVec.cons b z).toInt = (z.toNat : Int) - if b then 2 ^ 31 else 0 := by
  have hz := z.isLt
  rw [BitVec.toInt_eq_toNat_cond, toNat_cons]
  cases b
  · rw [if_pos (by simp; omega)]
    simp
  · rw [if_neg (by simp only [if_true]; omega)]
    simp
    omega

theorem Score.exists_cons (s : Score) : ∃ b z, s.bits = BitVec.cons b z :=
  ⟨_, _, (BitVec.cons_msb_setWidth s.bits).symm⟩

theorem Score.negative_cons {s : Score} {b : Bool} {z : BitVec 31} (h : s.bits = BitVec.cons b z) :
    s.negative = (b && z != 0#31) := by
  have hzero : 0#32 = BitVec.cons false 0#31 := by decide
  have hlow : (BitVec.cons false z != 0#32) = (z != 0#31) := by
    rw [hzero, Bool.eq_iff_iff]
    simp [BitVec.toNat_eq]
  unfold Score.negative
  rw [h, maskLow_eq, BitVec.cons_and_cons, Bool.and_false, BitVec.and_allOnes, BitVec.msb_cons, hlow]

theorem orderedFloatKey_eq (s : Score) : (orderedFloatKey s : Int) = residentKey s + 2 ^ 31 := by
  obtain ⟨b, z, h⟩ := s.exists_cons
  have hz := z.isLt
  unfold orderedFloatKey residentKey
  rw [Score.negative_cons h, h, maskLow_eq, signBit_eq]
  simp only [BitVec.cons_and_cons, BitVec.cons_xor_cons, BitVec.cons_or_cons, BitVec.not_cons, Bool.xor_false,
    Bool.and_false, Bool.or_true, BitVec.xor_allOnes, BitVec.and_allOnes, BitVec.or_zero]
  by_cases hn : (b && z != 0#31) = true
  · obtain ⟨rfl, -⟩ := Bool.and_eq_true_iff.mp hn
    rw [if_pos hn, if_pos hn, toNat_cons, toInt_cons, BitVec.toNat_not]
    simp
  · rw [if_neg hn, if_neg hn, toNat_cons, toInt_cons]
    simp
    omega

theorem orderedFloatKey_pos (s : Score) : 0 < orderedFloatKey s := by
  unfold orderedFloatKey
  by_cases hn : s.negative = true
  · rw [if_pos hn]
    by_contra hzero
    have hones : s.bits = BitVec.allOnes 32 := by
      apply BitVec.eq_of_toNat_eq
      have := s.bits.isLt
      rw [BitVec.toNat_not] at hzero
      rw [BitVec.toNat_allOnes]
      omega
    apply s.finite
    rw [hones]
    decide
  · rw [if_neg hn]
    by_contra hzero
    have hbits : s.bits ||| 0x80000000#32 = 0#32 := BitVec.eq_of_toNat_eq (Nat.eq_zero_of_not_pos hzero)
    rw [BitVec.or_eq_zero_iff] at hbits
    exact absurd hbits.2 (by decide)

theorem orderedFloatKey_lt (s : Score) : orderedFloatKey s < 2 ^ 32 := by
  unfold orderedFloatKey
  split
  · exact BitVec.isLt _
  · exact BitVec.isLt _

theorem residentKey_gt (s : Score) : -2147483648 < residentKey s := by
  have := orderedFloatKey_eq s
  have := orderedFloatKey_pos s
  omega

/-! ## Histograms -/

section
variable {α : Type*} (l : List α) (ok : α → Bool) (d : α → Nat)

theorem countP_parked (c : Nat) :
    l.countP (fun r => (if ok r then d r else 0) == c) - (if c = 0 then l.countP (fun r => !ok r) else 0) =
      l.countP fun r => ok r && d r == c := by
  have hsum : l.countP (fun r => (if ok r then d r else 0) == c) =
      l.countP (fun r => ok r && d r == c) + if c = 0 then l.countP (fun r => !ok r) else 0 := by
    induction l with
    | nil => simp
    | cons r l ih =>
      rw [List.countP_cons, List.countP_cons, List.countP_cons, ih]
      by_cases hok : ok r = true
      · simp [hok]
        omega
      · by_cases hc : c = 0
        · simp [hok, hc]
          omega
        · simp [hok, hc, Ne.symm hc]
  omega

theorem sum_histogram (n : Nat) :
    ((List.range n).map fun c => l.countP fun r => ok r && d r == c).sum = l.countP fun r => ok r && decide (d r < n) := by
  induction n with
  | zero => simp
  | succ n ih =>
    rw [List.range_succ, List.map_append, List.sum_append, ih, List.map_singleton, List.sum_singleton]
    clear ih
    induction l with
    | nil => rfl
    | cons r l ihl =>
      simp only [List.countP_cons, ← ihl]
      by_cases hok : ok r = true
      · rcases Nat.lt_trichotomy (d r) n with h | h | h
        · simp [hok, h, h.ne, Nat.lt_succ_of_lt h]
          omega
        · simp [hok, h]
          omega
        · simp [hok, h.ne', Nat.not_lt.mpr h.le, Nat.not_lt.mpr (Nat.succ_le_of_lt h)]
      · simp [hok]

theorem sum_histogram_above (n c : Nat) :
    ((List.range n).map fun b => if c < b then l.countP (fun r => ok r && d r == b) else 0).sum =
      l.countP fun r => ok r && decide (c < d r) && decide (d r < n) := by
  have h : ∀ b, (if c < b then l.countP (fun r => ok r && d r == b) else 0) =
      l.countP fun r => (ok r && decide (c < d r)) && d r == b := by
    intro b
    by_cases hb : c < b
    · rw [if_pos hb]
      apply List.countP_congr
      intro r _
      simp only [Bool.and_eq_true, beq_iff_eq, decide_eq_true_eq]
      constructor
      · rintro ⟨hok, rfl⟩
        exact ⟨⟨hok, hb⟩, rfl⟩
      · rintro ⟨⟨hok, -⟩, rfl⟩
        exact ⟨hok, rfl⟩
    · rw [if_neg hb, eq_comm, List.countP_eq_zero]
      intro r _ hr
      simp only [Bool.and_eq_true, beq_iff_eq, decide_eq_true_eq] at hr
      omega
  simp only [h]
  rw [sum_histogram]

theorem countP_above (c : Nat) :
    l.countP ok - l.countP (fun r => ok r && decide (d r < c + 1)) = l.countP fun r => ok r && decide (c < d r) := by
  have hsum : l.countP ok = l.countP (fun r => ok r && decide (d r < c + 1)) + l.countP fun r => ok r && decide (c < d r) := by
    induction l with
    | nil => rfl
    | cons r l ih =>
      simp only [List.countP_cons, ih]
      by_cases hok : ok r = true
      · by_cases hc : c < d r
        · simp [hok, hc, Nat.not_lt.mpr (Nat.succ_le_of_lt hc)]
          omega
        · simp [hok, hc, Nat.lt_succ_of_le (Nat.le_of_not_lt hc)]
          omega
      · simp [hok]
  omega

end

theorem countP_range_lt {v n : Nat} (hvn : v ≤ n) (f : Nat → Bool) :
    (List.range n).countP (fun r => decide (r < v) && f r) = (List.range v).countP f := by
  obtain ⟨m, rfl⟩ := Nat.exists_eq_add_of_le hvn
  rw [List.range_add, List.countP_append, List.countP_map]
  have hleft : (List.range v).countP (fun r => decide (r < v) && f r) = (List.range v).countP f := by
    apply List.countP_congr
    intro r hr
    simp [List.mem_range.mp hr]
  have hright : (List.range m).countP ((fun r => decide (r < v) && f r) ∘ (v + ·)) = 0 := by
    simp [List.countP_eq_zero]
  rw [hleft, hright, Nat.add_zero]

theorem visible_le (row : ScoreRow) : row.visible ≤ row.seqRegions := by
  unfold ScoreRow.visible
  omega

/-! ## The radix threshold -/

section
variable (row : ScoreRow) {blockR : Nat}

/-- The lanes of all tiles are the regions in order, and lanes past the visible ones are not counted. -/
theorem countP_tiles (hb : 0 < blockR) (f : Nat → Bool) :
    ((strided 0 row.seqRegions blockR).map fun base =>
      (List.range' base blockR).countP fun r => decide (r < row.visible) && f r).sum = (List.range row.visible).countP f := by
  have hle : row.visible ≤ cdiv row.seqRegions blockR * blockR :=
    (visible_le row).trans (le_cdiv_mul _ hb)
  have h := congrArg (List.countP fun r => decide (r < row.visible) && f r) (flatMap_strided 0 row.seqRegions blockR)
  rw [Nat.sub_zero, ← List.range_eq_range', countP_range_lt hle, List.countP_flatMap] at h
  exact h

theorem histogram_eq (hb : 0 < blockR) (threshold pass c : Nat) :
    histogram row blockR threshold pass c = (List.range row.visible).countP fun r =>
      (pass == 0 || row.key r >>> (32 - 8 * (pass + 1) + 8) == threshold >>> (32 - 8 * (pass + 1) + 8)) &&
        row.key r >>> (32 - 8 * (pass + 1)) % 256 == c := by
  unfold histogram
  rw [← countP_tiles row hb]
  congr 1
  apply List.map_congr_left
  intro base _
  unfold tileHistogram
  rw [countP_parked]
  apply List.countP_congr
  intro r _
  have hmask : ∀ x : Nat, x &&& (radixBuckets - 1) = x % 256 := fun x => Nat.and_two_pow_sub_one_eq_mod x 8
  simp only [hmask, Bool.and_assoc]

end

/-! ## One radix pass -/

section
variable {α : Type*} (l : List α) (ok : α → Bool) (d : α → Nat)

theorem countP_from (c : Nat) :
    l.countP (fun r => ok r && decide (c ≤ d r)) =
      l.countP (fun r => ok r && decide (c < d r)) + l.countP fun r => ok r && d r == c := by
  induction l with
  | nil => rfl
  | cons r l ih =>
    simp only [List.countP_cons, ih]
    by_cases hok : ok r = true
    · rcases Nat.lt_trichotomy c (d r) with h | h | h
      · simp [hok, h, h.le, h.ne']
        omega
      · simp [hok, h]
        omega
      · simp [hok, Nat.not_le.mpr h, Nat.not_lt.mpr h.le, h.ne]
    · simp [hok]

/-- The smallest bucket with fewer than `remaining` entries above it holds the cut. -/
theorem chosen_bucket {n remaining chosen : Nat} (hd : ∀ r, d r < n) (hpos : 0 < remaining) (hle : remaining ≤ l.countP ok)
    (hchosen : ((List.range n).map fun b => if l.countP (fun r => ok r && decide (b < d r)) < remaining then b else n).foldr
      min n = chosen) :
    chosen < n ∧ l.countP (fun r => ok r && decide (chosen < d r)) < remaining ∧
      remaining ≤ l.countP (fun r => ok r && decide (chosen < d r)) + l.countP fun r => ok r && d r == chosen := by
  let above := fun c => l.countP fun r => ok r && decide (c < d r)
  have hn : 0 < n := by
    by_contra h0
    have hnil : l.countP ok = 0 := by
      rw [List.countP_eq_zero]
      intro r _ _
      have := hd r
      omega
    omega
  have hlast : above (n - 1) = 0 := by
    rw [List.countP_eq_zero]
    intro r _ hr
    simp only [Bool.and_eq_true, decide_eq_true_eq] at hr
    have := hd r
    omega
  have hmin : ∀ b < n, chosen ≤ if above b < remaining then b else n := fun b hb =>
    hchosen ▸ foldr_min_le (List.mem_map.mpr ⟨b, List.mem_range.mpr hb, rfl⟩)
  have hlt : chosen < n := by
    have := hmin (n - 1) (by omega)
    rw [hlast, if_pos hpos] at this
    omega
  have hbelow : above chosen < remaining := by
    rcases foldr_min_mem n ((List.range n).map fun b => if above b < remaining then b else n) with h | h
    · exact absurd (hchosen.symm.trans h) hlt.ne
    · obtain ⟨b, -, hb⟩ := List.mem_map.mp h
      replace hb := hb.trans hchosen
      by_cases ha : above b < remaining
      · rw [if_pos ha] at hb
        exact hb ▸ ha
      · rw [if_neg ha] at hb
        omega
  refine ⟨hlt, hbelow, ?_⟩
  rw [← countP_from]
  -- the bucket below was not chosen
  by_cases hzero : chosen = 0
  · rw [hzero]
    simpa using hle
  · have hprev := hmin (chosen - 1) (by omega)
    by_cases ha : above (chosen - 1) < remaining
    · rw [if_pos ha] at hprev
      omega
    · have hsame : l.countP (fun r => ok r && decide (chosen ≤ d r)) = above (chosen - 1) := by
        apply List.countP_congr
        intro r _
        have hiff : chosen ≤ d r ↔ chosen - 1 < d r := by omega
        simp only [hiff]
      omega

end

/-- With `shift` bits to go, `remaining` of the keys that agree with the threshold are still to be taken. -/
def Narrowed (q : Nat → Nat) (v budget shift : Nat) (st : RadixState) : Prop :=
  ∃ T, st.threshold = T <<< shift ∧
    (List.range v).countP (fun r => decide (T < q r >>> shift)) + st.remaining = budget ∧
    0 < st.remaining ∧ st.remaining ≤ (List.range v).countP fun r => q r >>> shift == T

theorem shiftRight_digit (x s : Nat) : x >>> (s + 8) = (x >>> s) / 256 := by
  rw [Nat.shiftRight_add, Nat.shiftRight_eq_div_pow (x >>> s) 8]

theorem countP_split_digit (l : List Nat) (x : Nat → Nat) (T c : Nat) (hc : c < 256) :
    l.countP (fun r => decide (T * 256 + c < x r)) =
      l.countP (fun r => decide (T < x r / 256)) + l.countP fun r => x r / 256 == T && decide (c < x r % 256) := by
  induction l with
  | nil => rfl
  | cons r l ih =>
    simp only [List.countP_cons, ih]
    have hdm := Nat.div_add_mod (x r) 256
    have hlt := Nat.mod_lt (x r) (show 0 < 256 by omega)
    rcases Nat.lt_trichotomy T (x r / 256) with h | h | h
    · have hx : T * 256 + c < x r := by omega
      simp [h, h.ne', hx]
      omega
    · have hiff : decide (T * 256 + c < x r) = decide (c < x r % 256) := decide_eq_decide.mpr (by omega)
      rw [hiff]
      simp [h]
      omega
    · have hx : ¬ T * 256 + c < x r := by omega
      simp [Nat.not_lt.mpr h.le, h.ne, hx]

section
variable (row : ScoreRow) {blockR : Nat}

theorem radixPass_narrowed (hb : 0 < blockR) {budget pass : Nat} {st : RadixState} (hpass : pass < 4)
    (h : Narrowed row.key row.visible budget (32 - 8 * pass) st) :
    Narrowed row.key row.visible budget (32 - 8 * (pass + 1)) (radixPass row blockR st pass) := by
  obtain ⟨s, hs⟩ : ∃ s, 32 - 8 * (pass + 1) = s := ⟨_, rfl⟩
  have hs8 : 32 - 8 * pass = s + 8 := by omega
  rw [hs8] at h
  obtain ⟨T, hT, hsum, hpos, hle⟩ := h
  let x := fun r => row.key r >>> s
  let ok := fun r => x r / 256 == T
  let d := fun r => x r % 256
  have hkey : ∀ r, row.key r >>> (s + 8) = x r / 256 := fun r => shiftRight_digit _ s
  have hthr : st.threshold >>> (s + 8) = T := by
    rw [hT, Nat.shiftLeft_shiftRight]
  simp only [hkey] at hsum hle
  -- no bit is fixed before the first pass, where the prefix of every key is zero
  have hmatch : ∀ r, (pass == 0 || x r / 256 == T) = (x r / 256 == T) := by
    intro r
    by_cases hp : pass = 0
    · subst hp
      have hzero : ∀ r, x r / 256 = 0 := by
        intro r
        have hlt := orderedFloatKey_lt (row.scores r)
        rw [← hkey, ← hs8, Nat.shiftRight_eq_div_pow]
        exact Nat.div_eq_of_lt hlt
      have hTzero : T = 0 := by
        by_contra hne
        have : (List.range row.visible).countP (fun r => x r / 256 == T) = 0 := by
          rw [List.countP_eq_zero]
          intro r _ hr
          exact hne (by rw [← beq_iff_eq.mp hr, hzero])
        omega
      simp [hzero, hTzero]
    · simp [hp]
  have hhist : histogram row blockR st.threshold pass =
      fun c => (List.range row.visible).countP fun r => ok r && d r == c := by
    funext c
    rw [histogram_eq row hb, hs]
    simp only [hkey, hthr, hmatch]
    rfl
  have hd : ∀ r, d r < 256 := fun r => Nat.mod_lt _ (by omega)
  have habove : ∀ c, ((List.range 256).map (histogram row blockR st.threshold pass)).sum -
      ((List.range (c + 1)).map (histogram row blockR st.threshold pass)).sum =
      (List.range row.visible).countP fun r => ok r && decide (c < d r) := by
    intro c
    rw [hhist, sum_histogram, sum_histogram, ← countP_above]
    simp [hd]
  unfold radixPass
  rw [hs]
  simp only [radixBuckets, habove]
  rw [hhist, sum_histogram_above]
  generalize hchosen : ((List.range 256).map fun b => if (List.range row.visible).countP (fun r => ok r &&
    decide (b < d r)) < st.remaining then b else 256).foldr min 256 = chosen
  obtain ⟨hlt, hbelow, hreach⟩ := chosen_bucket (List.range row.visible) ok d hd hpos hle hchosen
  have hcut : (List.range row.visible).countP (fun r => ok r && decide (chosen < d r) && decide (d r < 256)) =
      (List.range row.visible).countP fun r => ok r && decide (chosen < d r) := by
    simp [hd]
  rw [hcut]
  refine ⟨T * 256 + chosen, ?_, ?_, ?_, ?_⟩
  · have hor : T <<< (s + 8) ||| chosen <<< s = (T <<< 8 ||| chosen) <<< s := by
      rw [Nat.shiftLeft_or_distrib, ← Nat.shiftLeft_add, Nat.add_comm 8 s]
    rw [hT, hor, ← Nat.shiftLeft_add_eq_or_of_lt hlt, Nat.shiftLeft_eq T 8]
  · change (List.range row.visible).countP (fun r => decide (T * 256 + chosen < x r)) + _ = budget
    rw [countP_split_digit _ _ _ _ hlt]
    change (List.range row.visible).countP (fun r => decide (T < x r / 256)) +
      (List.range row.visible).countP (fun r => ok r && decide (chosen < d r)) + (st.remaining - _) = budget
    omega
  · change 0 < st.remaining - _
    omega
  · have heq : (List.range row.visible).countP (fun r => ok r && d r == chosen) =
        (List.range row.visible).countP fun r => x r == T * 256 + chosen := by
      apply List.countP_congr
      intro r _
      have hdm := Nat.div_add_mod (x r) 256
      have := hd r
      simp only [ok, d, Bool.and_eq_true, beq_iff_eq]
      constructor
      · rintro ⟨h₁, h₂⟩
        omega
      · intro hx
        constructor
        · omega
        · omega
    change st.remaining - _ ≤ (List.range row.visible).countP fun r => x r == T * 256 + chosen
    omega

/-- The radix threshold cuts the budget off, and `remaining` is what the keys above it leave of the budget. -/
theorem radixTopkThreshold_cuts (hb : 0 < blockR) {budget : Nat} (hpos : 0 < budget) (hle : budget ≤ row.visible) :
    let cut := radixTopkThreshold row blockR budget
    Cuts ((List.range row.visible).map row.key) budget cut.threshold ∧
      cut.remaining = budget - (List.range row.visible).countP (cut.threshold < row.key ·) := by
  intro cut
  have hkey : ∀ r, row.key r >>> 32 = 0 := by
    intro r
    rw [Nat.shiftRight_eq_div_pow]
    exact Nat.div_eq_of_lt (orderedFloatKey_lt _)
  have h₀ : Narrowed row.key row.visible budget 32 ⟨0, budget⟩ := by
    refine ⟨0, rfl, ?_, hpos, ?_⟩
    · simp [hkey]
    · simp only [hkey]
      simpa using hle
  have h₁ := radixPass_narrowed row hb (show 0 < 4 by omega) h₀
  have h₂ := radixPass_narrowed row hb (show 1 < 4 by omega) h₁
  have h₃ := radixPass_narrowed row hb (show 2 < 4 by omega) h₂
  obtain ⟨T, hT, hsum, hrem, hties⟩ := radixPass_narrowed row hb (show 3 < 4 by omega) h₃
  change cut.threshold = T at hT
  subst hT
  change (List.range row.visible).countP (fun r => decide (cut.threshold < row.key r)) + cut.remaining = budget at hsum
  change 0 < cut.remaining at hrem
  change cut.remaining ≤ (List.range row.visible).countP fun r => row.key r == cut.threshold at hties
  refine ⟨⟨?_, ?_⟩, by omega⟩
  · rw [List.countP_map]
    change (List.range row.visible).countP (fun r => decide (cut.threshold < row.key r)) < budget
    omega
  · rw [countP_le_split, List.countP_map, List.countP_map]
    change budget ≤ (List.range row.visible).countP (fun r => decide (cut.threshold < row.key r)) +
      (List.range row.visible).countP fun r => row.key r == cut.threshold
    omega

end

/-! ## The narrowing bracket -/

theorem minKey_cuts {keys : List Int} {budget : Nat} {mid : Int} (hpos : 0 < budget) (hmax : ∀ k ∈ keys, k ≤ 2147483647)
    (hcount : keys.countP (mid ≤ ·) = budget) : Cuts keys budget (minKey (mid ≤ ·) keys) := by
  obtain ⟨t, ht⟩ : ∃ t, minKey (mid ≤ ·) keys = t := ⟨_, rfl⟩
  rw [ht]
  have hmin : ∀ k ∈ keys, mid ≤ k → t ≤ k := by
    intro k hk hmid
    rw [← ht]
    exact foldr_min_le (List.mem_map.mpr ⟨k, hk, by simp [hmid]⟩)
  obtain ⟨k, hk, hmid⟩ := List.countP_pos_iff.mp (hcount ▸ hpos)
  rw [decide_eq_true_eq] at hmid
  have hattained : ∃ k ∈ keys, mid ≤ k ∧ k = t := by
    have hcap : t = 2147483647 → ∃ k ∈ keys, mid ≤ k ∧ k = t := fun h =>
      ⟨k, hk, hmid, le_antisymm (h ▸ hmax k hk) (hmin k hk hmid)⟩
    rcases foldr_min_mem 2147483647 (keys.map fun k => if decide (mid ≤ k) then k else 2147483647) with h | h
    · exact hcap (ht.symm.trans h)
    · obtain ⟨k', hk', he⟩ := List.mem_map.mp h
      replace he := he.trans ht
      by_cases hm : mid ≤ k'
      · exact ⟨k', hk', hm, by simpa [hm] using he⟩
      · exact hcap (by simpa [hm] using he.symm)
  obtain ⟨k₀, hk₀, hmid₀, rfl⟩ := hattained
  have hsame : keys.countP (k₀ ≤ ·) = budget := by
    rw [← hcount]
    apply List.countP_congr
    intro x hx
    simp only [decide_eq_true_eq]
    exact ⟨hmid₀.trans, hmin x hx⟩
  have htie : 0 < keys.countP (· = k₀) := List.countP_pos_iff.mpr ⟨k₀, hk₀, by simp⟩
  have hsplit := countP_le_split keys k₀
  exact ⟨by omega, hsame.ge⟩

theorem narrow_cuts {keys : List Int} {budget : Nat} (pivot : Pivot) (hpos : 0 < budget)
    (hmax : ∀ k ∈ keys, k ≤ 2147483647) (b : Bracket) (hlo : budget ≤ keys.countP (b.lo ≤ ·))
    (hhi : keys.countP (b.hi ≤ ·) < budget) : Cuts keys budget (narrow keys budget pivot b) := by
  induction b using narrow.induct keys budget pivot with
  | case1 b h _ _ hcount =>
    rw [narrow, dif_pos h]
    dsimp only
    rw [if_pos hcount]
    exact minKey_cuts hpos hmax hcount
  | case2 b h _ _ _ hne hlt ih =>
    rw [narrow, dif_pos h]
    dsimp only
    rw [if_neg hne, if_pos hlt]
    exact ih hlt.le hhi
  | case3 b h _ _ _ hne hge ih =>
    rw [narrow, dif_pos h]
    dsimp only
    rw [if_neg hne, if_neg hge]
    apply ih hlo
    dsimp only at hne hge ⊢
    omega
  | case4 b h =>
    rw [narrow, dif_neg h]
    refine ⟨?_, hlo⟩
    refine lt_of_le_of_lt (List.countP_mono_left fun k _ hk => ?_) hhi
    rw [decide_eq_true_eq] at hk ⊢
    omega

section
variable (row : ScoreRow) {blockR : Nat}

theorem ScoreRow.key_eq (r : Nat) : (row.key r : Int) = row.signedKey r + 2 ^ 31 := orderedFloatKey_eq _

theorem countP_laneKeys (hv : row.visible ≤ blockR) {f : Int → Bool} (hdead : f (-2147483648) = false) :
    (laneKeys row blockR).countP f = ((List.range row.visible).map row.signedKey).countP f := by
  unfold laneKeys
  rw [List.countP_map, List.countP_map, ← countP_range_lt hv]
  apply List.countP_congr
  intro r _
  simp only [Function.comp_apply]
  by_cases hr : r < row.visible
  · simp [hr]
  · simp [hr, hdead]

theorem residentThreshold_cuts (hv : row.visible ≤ blockR) (pivot : Pivot) {budget : Nat} (hpos : 0 < budget)
    (hle : budget ≤ row.visible) :
    Cuts ((List.range row.visible).map row.signedKey) budget (residentThreshold row blockR pivot budget) := by
  have hlow : ∀ r, -2147483648 < row.signedKey r := fun r => residentKey_gt _
  have hcap : ∀ k ∈ laneKeys row blockR, k ≤ 2147483647 := by
    intro k hk
    obtain ⟨r, -, rfl⟩ := List.mem_map.mp hk
    by_cases hr : r < row.visible
    · rw [if_pos hr]
      have hlt : row.key r < 2 ^ 32 := orderedFloatKey_lt _
      have := row.key_eq r
      omega
    · rw [if_neg hr]
      omega
  obtain ⟨lo, hlo⟩ : ∃ lo, ((List.range blockR).map fun r =>
      if r < row.visible then row.signedKey r else 2147483647).foldr min 2147483647 = lo := ⟨_, rfl⟩
  have hlogt : -2147483648 < lo := by
    rcases foldr_min_mem 2147483647 ((List.range blockR).map fun r =>
      if r < row.visible then row.signedKey r else 2147483647) with h | h
    · omega
    · obtain ⟨r, -, hr⟩ := List.mem_map.mp h
      have := hlow r
      split at hr
      · omega
      · omega
  have hlole : ∀ r < row.visible, lo ≤ row.signedKey r := by
    intro r hr
    rw [← hlo]
    exact foldr_min_le (List.mem_map.mpr ⟨r, List.mem_range.mpr (hr.trans_le hv), if_pos hr⟩)
  have hcuts : Cuts (laneKeys row blockR) budget (residentThreshold row blockR pivot budget) := by
    unfold residentThreshold
    dsimp only
    rw [hlo]
    apply narrow_cuts pivot hpos hcap
    · rw [countP_laneKeys row hv (by simpa using hlogt)]
      have hall : ((List.range row.visible).map row.signedKey).countP (lo ≤ ·) = row.visible := by
        rw [List.countP_eq_length.mpr]
        · simp
        · intro k hk
          obtain ⟨r, hr, rfl⟩ := List.mem_map.mp hk
          simpa using hlole r (List.mem_range.mp hr)
      exact hle.trans hall.ge
    · have hnone : (laneKeys row blockR).countP ((laneKeys row blockR).foldr max (-2147483648) + 1 ≤ ·) = 0 := by
        rw [List.countP_eq_zero]
        intro k hk
        have : k ≤ (laneKeys row blockR).foldr max (-2147483648) := le_foldr_max hk
        simp
        omega
      dsimp only
      omega
  generalize residentThreshold row blockR pivot budget = t at hcuts
  obtain ⟨habove, hleast⟩ := hcuts
  have ht : -2147483648 < t := by
    by_contra hle'
    have hall : row.visible ≤ (laneKeys row blockR).countP (t < ·) := by
      calc row.visible = ((List.range row.visible).map row.signedKey).countP (-2147483648 < ·) := by
            rw [List.countP_eq_length.mpr]
            · simp
            · intro k hk
              obtain ⟨r, -, rfl⟩ := List.mem_map.mp hk
              simpa using hlow r
        _ = (laneKeys row blockR).countP (-2147483648 < ·) := (countP_laneKeys row hv (by simp)).symm
        _ ≤ (laneKeys row blockR).countP (t < ·) := by
            apply List.countP_mono_left
            intro k _ hk
            rw [decide_eq_true_eq] at hk ⊢
            omega
    omega
  refine ⟨?_, ?_⟩
  · rw [← countP_laneKeys row hv (by simp; omega)]
    exact habove
  · rw [← countP_laneKeys row hv (by simpa using ht)]
    exact hleast

end

end VllmHcu.Sparse
