import VllmHcu.Moe.DpPipe
import VllmHcu.Lib.Cut
import VllmHcu.Lib.RowMajor
import Mathlib.Algebra.Order.BigOperators.Group.Finset
import Mathlib.Data.Finset.Max

/-!
# The pipe computes the plain result

Every rank issues the same collectives, so none waits for ever; a group's rows are
gathered before its experts read them, and its reductions wait for the experts of
every rank. One invariant over the launches that each rank has done carries this
through every interleaving.
-/

namespace VllmHcu.Moe

open DpPipe

/-! ## Offsets and groups -/

section
variable {sizes : List Nat}

theorem offs_succ (sizes : List Nat) (r : Nat) : offs sizes (r + 1) = offs sizes r + size sizes r := by
  unfold offs size
  rw [List.take_add_one, List.sum_append, List.getD_eq_getElem?_getD]
  cases sizes[r]? <;> simp

theorem offs_length (sizes : List Nat) : offs sizes sizes.length = sizes.sum := by simp [offs]

theorem offs_mono {r r' : Nat} (h : r ≤ r') : offs sizes r ≤ offs sizes r' := offset_mono (offs_succ sizes) h

theorem offs_le_sum {r : Nat} (h : r ≤ sizes.length) : offs sizes r ≤ sizes.sum := offs_length sizes ▸ offs_mono h

variable {c : DpPipe}

theorem mem_groups {g : Nat × Nat} (hg : g ∈ c.groups sizes) : g.1 ≤ g.2 ∧ g.2 ≤ sizes.length := by
  unfold groups at hg
  cases hd : c.dbo <;> simp [hd] at hg
  · rcases hg with rfl | rfl
    · exact ⟨Nat.zero_le _, Nat.div_le_self ..⟩
    · exact ⟨Nat.div_le_self .., Nat.le_refl _⟩
  · rw [hg]
    exact ⟨Nat.zero_le _, Nat.le_refl _⟩

/-- Every rank is in a group. -/
theorem exists_group {r : Nat} (hr : r < sizes.length) :
    ∃ (k : Nat) (g : Nat × Nat), (c.groups sizes)[k]? = some g ∧ g.1 ≤ r ∧ r < g.2 := by
  unfold groups
  cases c.dbo with
  | true => exact ⟨0, _, rfl, Nat.zero_le _, hr⟩
  | false =>
    by_cases h : r < sizes.length / 2
    · exact ⟨0, _, rfl, Nat.zero_le _, h⟩
    · exact ⟨1, _, rfl, Nat.le_of_not_lt h, hr⟩

theorem group_mem {k : Nat} {g : Nat × Nat} (h : (c.groups sizes)[k]? = some g) : k < (c.groups sizes).length ∧ g.1 ≤ g.2 ∧ g.2 ≤ sizes.length := by
  obtain ⟨hk, rfl⟩ := List.getElem?_eq_some_iff.mp h
  exact ⟨hk, mem_groups (List.getElem_mem hk)⟩

/-- The rows of a rank lie in those of its group. -/
theorem row_in_group {g : Nat × Nat} {root i : Nat} (hlo : g.1 ≤ root) (hhi : root < g.2) (hi : i < size sizes root) :
    offs sizes g.1 ≤ offs sizes root + i ∧ offs sizes root + i < offs sizes g.2 := by
  have h₁ : offs sizes g.1 ≤ offs sizes root := offs_mono hlo
  have h₂ : offs sizes (root + 1) ≤ offs sizes g.2 := offs_mono hhi
  rw [offs_succ] at h₂
  omega

/-- A row between two offsets is a token of a rank between them. -/
theorem exists_token {a b row : Nat} (hlo : offs sizes a ≤ row) (hhi : row < offs sizes b) :
    ∃ root i, a ≤ root ∧ root < b ∧ i < size sizes root ∧ offs sizes root + i = row := by
  induction b with
  | zero => simp [offs] at hhi
  | succ b ih =>
    by_cases h : row < offs sizes b
    · obtain ⟨root, i, ha, hb, hi⟩ := ih h
      exact ⟨root, i, ha, Nat.lt_succ_of_lt hb, hi⟩
    · have hab : a ≤ b := by
        by_contra hcon
        have : offs sizes (b + 1) ≤ offs sizes a := offs_mono (Nat.lt_of_not_le hcon)
        omega
      rw [offs_succ] at hhi
      exact ⟨b, row - offs sizes b, hab, Nat.lt_succ_self b, by omega, by omega⟩

/-- The spare rows hold any group. -/
theorem rows_le_spare (hdirect : c.epDirectSum = true) {g : Nat × Nat} (hg : g ∈ c.groups sizes) :
    offs sizes g.2 - offs sizes g.1 ≤ c.spare sizes := by
  unfold spare
  rw [if_pos hdirect]
  unfold groups at hg ⊢
  cases hd : c.dbo <;> simp only [hd, Bool.false_eq_true, if_false, if_true, List.mem_cons, List.not_mem_nil, or_false] at hg ⊢
  · rcases hg with rfl | rfl
    · exact Nat.le_max_left ..
    · exact Nat.le_trans (Nat.le_max_left ..) (Nat.le_max_right ..)
  · rw [hg]
    exact Nat.le_max_left ..

/-! ## Uniform shards -/

theorem uniform_dbo (h : c.uniform sizes = true) : c.dbo = true ∧ 0 < size sizes 0 ∧ ∀ r < sizes.length, size sizes r = size sizes 0 := by
  simp only [uniform, Bool.and_eq_true, decide_eq_true_eq, List.all_eq_true, beq_iff_eq] at h
  refine ⟨h.1.1.2, h.1.2, ?_⟩
  intro r hr
  refine h.2 _ ?_
  unfold size
  rw [List.getD_eq_getElem?_getD, List.getElem?_eq_getElem hr, Option.getD_some]
  exact List.getElem_mem hr

theorem uniform_groups (h : c.uniform sizes = true) : c.groups sizes = [(0, sizes.length)] := by
  simp [groups, (uniform_dbo h).1]

theorem uniform_offs (h : c.uniform sizes = true) {r : Nat} (hr : r ≤ sizes.length) : offs sizes r = r * size sizes 0 := by
  induction r with
  | zero => simp [offs]
  | succ r ih => rw [offs_succ, ih (by omega), (uniform_dbo h).2.2 r (by omega), Nat.succ_mul]

/-! ## What the ranks issue -/

/-- Every rank issues the same collectives. -/
theorem issues_eq {r r' : Nat} (hr : r < sizes.length) (hr' : r' < sizes.length) : c.issues sizes r = c.issues sizes r' := by
  have hsame : ∀ g, c.broadcast sizes r g = c.broadcast sizes r' g ∧ c.reduce sizes r g = c.reduce sizes r' g := by
    intro g
    unfold broadcast reduce
    cases hu : c.uniform sizes with
    | false => exact ⟨rfl, rfl⟩
    | true =>
      obtain ⟨-, -, hall⟩ := uniform_dbo hu
      rw [hall r hr, hall r' hr']
      exact ⟨rfl, rfl⟩
  unfold issues
  rw [funext fun g => (hsame g).1, funext fun g => (hsame g).2]

theorem issues_length (r : Nat) : (c.issues sizes r).length = 2 * (c.groups sizes).length := by
  simp [issues, two_mul]

theorem issue_broadcast {r k : Nat} {g : Nat × Nat} (h : (c.groups sizes)[k]? = some g) :
    (c.issues sizes r)[k]? = some (c.broadcast sizes r g) := by
  have hk : k < ((c.groups sizes).map (c.broadcast sizes r)).length := by
    rw [List.length_map]
    exact (group_mem h).1
  unfold issues
  rw [List.getElem?_append_left hk, List.getElem?_map, h]
  rfl

theorem issue_reduce {r k : Nat} {g : Nat × Nat} (h : (c.groups sizes)[k]? = some g) :
    (c.issues sizes r)[(c.groups sizes).length + k]? = some (c.reduce sizes r g) := by
  have hk : ((c.groups sizes).map (c.broadcast sizes r)).length ≤ (c.groups sizes).length + k := by
    rw [List.length_map]
    exact Nat.le_add_right ..
  unfold issues
  rw [List.getElem?_append_right hk, List.length_map, Nat.add_sub_cancel_left, List.getElem?_map, h]
  rfl

/-- A launch is the broadcast or the reduction of a group. -/
theorem issue_cases {r k : Nat} {launch : List Collective} (h : (c.issues sizes r)[k]? = some launch) :
    (∃ g, (c.groups sizes)[k]? = some g ∧ launch = c.broadcast sizes r g) ∨
    ∃ k' g, k = (c.groups sizes).length + k' ∧ (c.groups sizes)[k']? = some g ∧ launch = c.reduce sizes r g := by
  by_cases hk : k < (c.groups sizes).length
  · have hg := List.getElem?_eq_getElem hk
    rw [issue_broadcast hg] at h
    exact .inl ⟨_, hg, (Option.some.inj h).symm⟩
  · obtain ⟨k', rfl⟩ := Nat.exists_eq_add_of_le (Nat.le_of_not_lt hk)
    obtain ⟨hlt, -⟩ := List.getElem?_eq_some_iff.mp h
    rw [issues_length] at hlt
    have hg := List.getElem?_eq_getElem (show k' < (c.groups sizes).length by omega)
    rw [issue_reduce hg] at h
    exact .inr ⟨k', _, rfl, hg, (Option.some.inj h).symm⟩

end

/-! ## What a launch stores -/

section
variable {X Y : Type} {c : DpPipe} {sizes : List Nat} {d : PipeData X Y}

theorem reduce_gathers (r : Nat) (g : Nat × Nat) : (c.reduce sizes r g).flatMap (Collective.gathers sizes d) = [] := by
  rw [List.flatMap_eq_nil_iff]
  intro x hx
  unfold reduce at hx
  split at hx
  · rw [List.mem_singleton] at hx
    rw [hx]
    rfl
  · obtain ⟨root, -, rfl⟩ := List.mem_map.mp hx
    rfl

/-- A gathered row is stored with its source's row only. -/
theorem gathers_agree {r : Nat} (hr : r < sizes.length) {g : Nat × Nat} {j root i : Nat} (hroot : root < sizes.length)
    (hi : i < size sizes root) : ∀ w ∈ (c.broadcast sizes r g).flatMap (Collective.gathers sizes d),
      w.1 = (j, offs sizes root + i) → w.2 = d.tokens root j i := by
  intro w hw heq
  obtain ⟨x, hx, hw⟩ := List.mem_flatMap.mp hw
  unfold broadcast at hx
  split at hx
  · rename_i hu
    obtain ⟨-, hpos, hall⟩ := uniform_dbo hu
    obtain ⟨j', -, rfl⟩ := List.mem_map.mp hx
    obtain ⟨src, hsrc, hw⟩ := List.mem_flatMap.mp hw
    obtain ⟨i', hi', rfl⟩ := List.mem_map.mp hw
    simp only [Prod.mk.injEq] at heq
    obtain ⟨rfl, heq⟩ := heq
    rw [List.mem_range, hall r hr] at hi'
    rw [hall root hroot] at hi
    rw [uniform_offs hu hroot.le, hall r hr] at heq
    have hdiv := congrArg (· / size sizes 0) heq
    have hmod := congrArg (· % size sizes 0) heq
    simp only [block_div hi', block_div hi, block_mod hi', block_mod hi] at hdiv hmod
    rw [hdiv, hmod]
  · obtain ⟨j', -, hx⟩ := List.mem_flatMap.mp hx
    obtain ⟨root', -, rfl⟩ := List.mem_map.mp hx
    obtain ⟨i', hi', rfl⟩ := List.mem_map.mp hw
    simp only [Prod.mk.injEq] at heq
    obtain ⟨rfl, heq⟩ := heq
    obtain ⟨rfl, rfl⟩ := offset_inj (offs_succ sizes) (List.mem_range.mp hi') hi heq
    rfl

/-- The rows of a group are all stored. -/
theorem gathers_cover {r : Nat} (hr : r < sizes.length) {k : Nat} {g : Nat × Nat} (hg : (c.groups sizes)[k]? = some g) {j root i : Nat}
    (hj : j < c.tensors) (hlo : g.1 ≤ root) (hhi : root < g.2) (hi : i < size sizes root) :
    ∃ w ∈ (c.broadcast sizes r g).flatMap (Collective.gathers sizes d), w.1 = (j, offs sizes root + i) := by
  have hroot : root < sizes.length := Nat.lt_of_lt_of_le hhi (group_mem hg).2.2
  unfold broadcast
  split
  · rename_i hu
    obtain ⟨-, -, hall⟩ := uniform_dbo hu
    refine ⟨((j, root * size sizes r + i), d.tokens root j i), ?_, ?_⟩
    · refine List.mem_flatMap.mpr ⟨_, List.mem_map_of_mem (List.mem_range.mpr hj), ?_⟩
      refine List.mem_flatMap.mpr ⟨root, List.mem_range.mpr hroot, List.mem_map.mpr ⟨i, List.mem_range.mpr ?_, rfl⟩⟩
      rwa [hall r hr, ← hall root hroot]
    · rw [uniform_offs hu hroot.le, hall r hr]
  · refine ⟨((j, offs sizes root + i), d.tokens root j i), ?_, rfl⟩
    refine List.mem_flatMap.mpr ⟨.broadcast j root (offs sizes root) (size sizes root) (size sizes root * c.cols j), ?_, ?_⟩
    · refine List.mem_flatMap.mpr ⟨j, List.mem_range.mpr hj, List.mem_map_of_mem ?_⟩
      rw [List.mem_range'_1]
      omega
    · exact List.mem_map_of_mem (List.mem_range.mpr hi)

end

/-! ## The invariant -/

section
variable {X Y : Type} (c : DpPipe) (sizes : List Nat) (d : PipeData X Y)

/-- `fe.apply` works row by row. -/
def PipeData.RowWise (expert : Nat → X → X → X → Option X → Y) : Prop :=
  ∀ rank batch, ∀ i < batch.n,
    d.apply rank batch i = expert rank (batch.hiddenStates i) (batch.topkWeights i) (batch.topkIds i) (batch.scale.at i)

/-- The scale that a rank's experts use for a token. -/
def tokenScale (rank root i : Nat) : Option X := if c.perToken then some (d.tokens root 3 i) else d.staticScale rank

/-- The output of a rank's experts for token `i` of `root`. -/
def expertRow (expert : Nat → X → X → X → Option X → Y) (rank root i : Nat) : Y :=
  expert rank (d.tokens root 0 i) (d.tokens root 1 i) (d.tokens root 2 i) (tokenScale c d rank root i)

/-- Row `row` of the arguments of the experts is token `i` of `root`. -/
structure BatchRow (batch : ExpertBatch X) (rank root i row : Nat) : Prop where
  inBatch : row < batch.n
  hiddenStates : batch.hiddenStates row = d.tokens root 0 i
  topkWeights : batch.topkWeights row = d.tokens root 1 i
  topkIds : batch.topkIds row = d.tokens root 2 i
  scale : batch.scale.at row = tokenScale c d rank root i

/-- The arguments of the experts are the tokens of the group, row by row. -/
structure GroupBatch (rank : Nat) (g : Nat × Nat) (batch : ExpertBatch X) : Prop where
  token : ∀ root, g.1 ≤ root → root < g.2 → ∀ i < size sizes root, BatchRow c d batch rank root i (offs sizes root + i - offs sizes g.1)
  row : ∀ row < batch.n, ∃ root i, g.1 ≤ root ∧ root < g.2 ∧ i < size sizes root ∧ BatchRow c d batch rank root i row

/-- The rows of the group have been gathered. -/
def HasRows (x : PipeRank X Y) (g : Nat × Nat) : Prop :=
  ∀ j < c.tensors, ∀ root, g.1 ≤ root → root < g.2 → ∀ i < size sizes root, x.gath (j, offs sizes root + i) = d.tokens root j i

structure RankInv [AddCommMonoid Y] (expert : Nat → X → X → X → Option X → Y) (rank : Nat) (x : PipeRank X Y) : Prop where
  gathered : ∀ k g, (c.groups sizes)[k]? = some g → k < x.side → HasRows c sizes d x g
  computed : ∀ k g, (c.groups sizes)[k]? = some g → k < x.compute → ∀ root, g.1 ≤ root → root < g.2 → ∀ i < size sizes root,
    x.moeFull (offs sizes root + i) = expertRow c d expert rank root i
  ahead : x.compute ≤ x.side ∧ x.compute ≤ (c.groups sizes).length ∧ x.side ≤ 2 * (c.groups sizes).length
  reduced : ∀ k g, (c.groups sizes)[k]? = some g → (c.groups sizes).length + k < x.side → g.1 ≤ rank → rank < g.2 →
    ∀ i < size sizes rank, x.result i = ∑ q ∈ Finset.range sizes.length, expertRow c d expert q rank i

variable {c sizes d} {expert : Nat → X → X → X → Option X → Y}

theorem batchRow (hcols : c.perToken = true → 0 < c.cols 3) (rank : Nat) {g : Nat × Nat} (hg : g.2 ≤ sizes.length) {gath : Nat × Nat → X} {root i : Nat}
    (hrows : ∀ j < c.tensors, gath (j, offs sizes root + i) = d.tokens root j i) (hlo : offs sizes g.1 ≤ offs sizes root + i)
    (hhi : offs sizes root + i < offs sizes g.2) :
    BatchRow c d (expertBatch c sizes d rank g gath) rank root i (offs sizes root + i - offs sizes g.1) := by
  have hrow : offs sizes g.1 + (offs sizes root + i - offs sizes g.1) = offs sizes root + i := Nat.add_sub_cancel' hlo
  have htensors : 2 < c.tensors := by
    unfold tensors
    split <;> omega
  constructor
  · simp only [expertBatch]
    omega
  · simp only [expertBatch, hrow]
    exact hrows 0 (by omega)
  · simp only [expertBatch, hrow]
    exact hrows 1 (by omega)
  · simp only [expertBatch, hrow]
    exact hrows 2 htensors
  · simp only [expertBatch, scaleArg, tokenScale]
    cases hp : c.perToken with
    | false =>
      simp only [Bool.false_eq_true, if_false]
      cases d.staticScale rank <;> rfl
    | true =>
      have hthree := hrows 3 (by simp [tensors, hp])
      simp only [if_true]
      by_cases hnumel : sizes.sum * c.cols 3 > 1
      · rw [if_pos hnumel]
        simp only [ScaleArg.at, hrow, hthree]
      · -- one row at most, and the slice starts at it
        have hsum : sizes.sum ≤ 1 := by
          have := Nat.le_mul_of_pos_right sizes.sum (hcols hp)
          omega
        have hle := offs_le_sum hg
        have hzero : offs sizes root + i - offs sizes g.1 = offs sizes root + i := by omega
        rw [if_neg hnumel]
        simp only [ScaleArg.at, hzero, hthree]

theorem apply_row (hf : d.RowWise expert) {batch : ExpertBatch X} {rank root i row : Nat} (h : BatchRow c d batch rank root i row) :
    d.apply rank batch row = expertRow c d expert rank root i := by
  rw [hf rank batch row h.inBatch, h.hiddenStates, h.topkWeights, h.topkIds, h.scale]
  rfl

/-- The experts of a group leave the other rows of `moe_out` alone. -/
theorem runExperts_other {rank : Nat} {g : Nat × Nat} {x : PipeRank X Y} (junk : Nat → Y) {row : Nat}
    (hin : ¬(offs sizes g.1 ≤ row ∧ row < offs sizes g.2)) (hsum : row < sizes.sum) :
    (runExperts c sizes d rank g junk x).moeFull row = x.moeFull row := by
  simp only [runExperts]
  by_cases hempty : offs sizes g.2 ≤ offs sizes g.1
  · rw [if_pos hempty]
  · rw [if_neg hempty, if_neg hin, if_neg (by omega)]

variable [AddCommMonoid Y]

theorem RankInv.experts (hf : d.RowWise expert) (hcols : c.perToken = true → 0 < c.cols 3) {rank : Nat} {x : PipeRank X Y}
    (h : RankInv c sizes d expert rank x) {g : Nat × Nat} (hg : (c.groups sizes)[x.compute]? = some g) (hlt : x.compute < x.side)
    (junk : Nat → Y) : RankInv c sizes d expert rank (runExperts c sizes d rank g junk x) where
  gathered := h.gathered
  reduced := h.reduced
  ahead := ⟨hlt, (group_mem hg).1, h.ahead.2.2⟩
  computed := by
    intro k g' hg' hk root hlo hhi i hi
    have hk : k < x.compute + 1 := hk
    have hle := (group_mem hg').2.2
    have hgle := (group_mem hg).2.2
    have hgathered := h.gathered k g' hg' (by omega)
    obtain ⟨hstart, hstop⟩ := row_in_group hlo hhi hi
    have hsum := offs_le_sum hle
    by_cases hin : offs sizes g.1 ≤ offs sizes root + i ∧ offs sizes root + i < offs sizes g.2
    · have hbatch := batchRow hcols rank hgle (fun j hj => hgathered j hj root hlo hhi i hi) hin.1 hin.2 (d := d)
      simp only [runExperts]
      rw [if_neg (by omega), if_pos hin]
      exact apply_row hf hbatch
    · have hne : k ≠ x.compute := by
        intro he
        rw [he, hg] at hg'
        cases hg'
        exact hin ⟨hstart, hstop⟩
      have hbefore := h.computed k g' hg' (by omega) root hlo hhi i hi
      rw [runExperts_other junk hin (Nat.lt_of_lt_of_le hstop hsum)]
      exact hbefore

theorem RankInv.broadcast {rank : Nat} (hr : rank < sizes.length) {x : PipeRank X Y} (h : RankInv c sizes d expert rank x) {g : Nat × Nat}
    (hg : (c.groups sizes)[x.side]? = some g) (moe : Nat → Nat → Y) :
    RankInv c sizes d expert rank (runCollectives sizes d rank (c.broadcast sizes rank g) moe x) := by
  have hside := (group_mem hg).1
  constructor
  · intro k g' hg' hk j hj root hlo hhi i hi
    have hk : k < x.side + 1 := hk
    have hroot := Nat.lt_of_lt_of_le hhi (group_mem hg').2.2
    refine scatter_eq_of_agree (gathers_agree hr hroot hi) ?_
    by_cases he : k = x.side
    · rw [he, hg] at hg'
      cases hg'
      exact .inr (gathers_cover hr hg hj hlo hhi hi)
    · exact .inl (h.gathered k g' hg' (by omega) j hj root hlo hhi i hi)
  · exact h.computed
  · have := h.ahead
    exact ⟨Nat.le_succ_of_le this.1, this.2.1, show x.side + 1 ≤ _ by omega⟩
  · intro k g' hg' hk
    have hk : (c.groups sizes).length + k < x.side + 1 := hk
    omega

/-- A reduction stores the sum of the experts' rows only. -/
theorem reduces_agree {rank : Nat} (hr : rank < sizes.length) {k : Nat} {g : Nat × Nat} (hg : (c.groups sizes)[k]? = some g)
    {moe : Nat → Nat → Y} (hmoe : ∀ q < sizes.length, ∀ root, g.1 ≤ root → root < g.2 → ∀ i < size sizes root,
      moe q (offs sizes root + i) = expertRow c d expert q root i) {i : Nat} (hi : i < size sizes rank) :
    ∀ w ∈ (c.reduce sizes rank g).flatMap (Collective.reduces sizes moe rank), w.1 = i →
      w.2 = ∑ q ∈ Finset.range sizes.length, expertRow c d expert q rank i := by
  intro w hmem heq
  obtain ⟨x, hx, hw⟩ := List.mem_flatMap.mp hmem
  unfold reduce at hx
  split at hx
  · rename_i hu
    obtain ⟨-, -, hall⟩ := uniform_dbo hu
    rw [List.mem_singleton] at hx
    rw [hx] at hw
    have hw : w ∈ (List.range (size sizes rank)).map fun i =>
      (i, (∑ q ∈ Finset.range sizes.length, moe q (rank * size sizes rank + i) : Y)) := hw
    obtain ⟨i', hi', rfl⟩ := List.mem_map.mp hw
    simp only at heq
    subst heq
    rw [uniform_groups hu] at hg
    obtain ⟨hk, rfl⟩ := List.getElem?_eq_some_iff.mp hg
    have hk : k = 0 := by simpa using hk
    subst hk
    dsimp only
    refine Finset.sum_congr rfl ?_
    intro q hq
    have hval := hmoe q (Finset.mem_range.mp hq) rank (Nat.zero_le _) hr i' hi
    rwa [uniform_offs hu hr.le, ← hall rank hr] at hval
  · obtain ⟨root, hroot, rfl⟩ := List.mem_map.mp hx
    rw [List.mem_range'_1] at hroot
    simp only [Collective.reduces] at hw
    by_cases he : root = rank
    · subst he
      rw [if_pos rfl] at hw
      obtain ⟨i', hi', rfl⟩ := List.mem_map.mp hw
      simp only at heq
      subst heq
      dsimp only
      refine Finset.sum_congr rfl ?_
      intro q hq
      exact hmoe q (Finset.mem_range.mp hq) root hroot.1 (by omega) i' hi
    · rw [if_neg he] at hw
      cases hw

theorem reduces_cover {rank : Nat} {g : Nat × Nat} (hlo : g.1 ≤ rank) (hhi : rank < g.2) (moe : Nat → Nat → Y) {i : Nat}
    (hi : i < size sizes rank) : ∃ w ∈ (c.reduce sizes rank g).flatMap (Collective.reduces sizes moe rank), w.1 = i := by
  unfold reduce
  split
  · refine ⟨(i, ∑ q ∈ Finset.range sizes.length, moe q (rank * size sizes rank + i)), ?_, rfl⟩
    exact List.mem_flatMap.mpr ⟨_, List.mem_singleton_self _, List.mem_map_of_mem (List.mem_range.mpr hi)⟩
  · refine ⟨(i, ∑ q ∈ Finset.range sizes.length, moe q (offs sizes rank + i)), ?_, rfl⟩
    refine List.mem_flatMap.mpr ⟨.reduce rank (offs sizes rank) (size sizes rank) (size sizes rank * c.k), ?_, ?_⟩
    · refine List.mem_map_of_mem ?_
      rw [List.mem_range'_1]
      omega
    · simp only [Collective.reduces, if_true]
      exact List.mem_map_of_mem (List.mem_range.mpr hi)

theorem RankInv.reduce {rank : Nat} (hr : rank < sizes.length) {x : PipeRank X Y} (h : RankInv c sizes d expert rank x) {k : Nat}
    {g : Nat × Nat} (hg : (c.groups sizes)[k]? = some g) (hside : x.side = (c.groups sizes).length + k) {moe : Nat → Nat → Y}
    (hmoe : ∀ q < sizes.length, ∀ root, g.1 ≤ root → root < g.2 → ∀ i < size sizes root,
      moe q (offs sizes root + i) = expertRow c d expert q root i) :
    RankInv c sizes d expert rank (runCollectives sizes d rank (c.reduce sizes rank g) moe x) := by
  have hk := (group_mem hg).1
  constructor
  · intro k' g' hg' hk' j hj root hlo hhi i hi
    have hlt := (group_mem hg').1
    simp only [runCollectives, reduce_gathers, scatter_nil]
    exact h.gathered k' g' hg' (by omega) j hj root hlo hhi i hi
  · exact h.computed
  · have := h.ahead
    exact ⟨Nat.le_succ_of_le this.1, this.2.1, show x.side + 1 ≤ _ by omega⟩
  · intro k' g' hg' hk' hlo hhi i hi
    have hk' : (c.groups sizes).length + k' < x.side + 1 := hk'
    refine scatter_eq_of_agree (reduces_agree hr hg hmoe hi) ?_
    by_cases he : k' = k
    · rw [he, hg] at hg'
      cases hg'
      exact .inr (reduces_cover hlo hhi moe hi)
    · exact .inl (h.reduced k' g' hg' (by omega) hlo hhi i hi)

theorem RankInv.initial {rank : Nat} {x : PipeRank X Y} (h : x.side = 0 ∧ x.compute = 0) : RankInv c sizes d expert rank x := by
  obtain ⟨hside, hcompute⟩ := h
  constructor
  · intro k g _ hk
    omega
  · intro k g _ hk
    omega
  · omega
  · intro k g _ hk
    omega

/-! ## Runs -/

variable (c sizes d expert) in
def PipeInv (s : Nat → PipeRank X Y) : Prop := ∀ r < sizes.length, RankInv c sizes d expert r (s r)

theorem PipeInv.step (hf : d.RowWise expert) (hcols : c.perToken = true → 0 < c.cols 3) {s t : Nat → PipeRank X Y}
    (h : PipeInv c sizes d expert s) (hstep : PipeStep c sizes d s t) : PipeInv c sizes d expert t := by
  intro r hr
  cases hstep with
  | experts rank g junk _ hg hlt =>
    by_cases he : r = rank
    · subst he
      rw [Function.update_self]
      exact (h r hr).experts hf hcols hg hlt junk
    · rw [Function.update_of_ne he]
      exact h r hr
  | collectives rank launch _ harrived hlaunch =>
    by_cases he : r = rank
    · subst he
      rw [Function.update_self]
      obtain ⟨g, hg, rfl⟩ | ⟨k, g, hside, hg, rfl⟩ := issue_cases (hlaunch r hr)
      · exact (h r hr).broadcast hr hg _
      · refine (h r hr).reduce hr hg hside ?_
        intro q hq
        have hready := (harrived q hq).2 (by omega)
        exact (h q hq).computed k g hg (by omega)
    · rw [Function.update_of_ne he]
      exact h r hr

theorem PipeRun.inv (hf : d.RowWise expert) (hcols : c.perToken = true → 0 < c.cols 3) {n : Nat} {s t : Nat → PipeRank X Y}
    (hrun : PipeRun c sizes d n s t) (h : PipeInv c sizes d expert s) : PipeInv c sizes d expert t := by
  induction hrun with
  | nil _ => exact h
  | snoc _ hstep ih => exact (ih h).step hf hcols hstep

variable (c sizes) in
/-- The streams of every rank have run dry. -/
def Finished (s : Nat → PipeRank X Y) : Prop :=
  ∀ r < sizes.length, (s r).side = 2 * (c.groups sizes).length ∧ (s r).compute = (c.groups sizes).length

/-- No rank waits for ever. -/
theorem PipeInv.progress {s : Nat → PipeRank X Y} (h : PipeInv c sizes d expert s) :
    Finished c sizes s ∨ ∃ t, PipeStep c sizes d s t := by
  by_cases hexp : ∃ r < sizes.length, (s r).compute < (c.groups sizes).length ∧ (s r).compute < (s r).side
  · obtain ⟨r, hr, hlt, hside⟩ := hexp
    exact .inr ⟨_, .experts r _ (fun _ => 0) hr (List.getElem?_eq_getElem hlt) hside⟩
  have hcompute : ∀ r < sizes.length, (c.groups sizes).length ≤ (s r).compute ∨ (s r).side ≤ (s r).compute := by
    intro r hr
    by_contra hcon
    exact hexp ⟨r, hr, by omega, by omega⟩
  by_cases hall : ∀ r < sizes.length, 2 * (c.groups sizes).length ≤ (s r).side
  · refine .inl ?_
    intro r hr
    have := (h r hr).ahead
    have := hall r hr
    have := hcompute r hr
    omega
  · -- the rank that is furthest behind can go on
    simp only [not_forall, not_le] at hall
    obtain ⟨r, hr, hlt⟩ := hall
    obtain ⟨m, hm, hmin⟩ := (Finset.range sizes.length).exists_min_image (fun q => (s q).side) ⟨r, Finset.mem_range.mpr hr⟩
    have hmr := hmin r (Finset.mem_range.mpr hr)
    rw [Finset.mem_range] at hm
    have hissue : (s m).side < (c.issues sizes m).length := by
      rw [issues_length]
      omega
    refine .inr ⟨_, .collectives m ((c.issues sizes m)[(s m).side]) hm ?_ ?_⟩
    · intro q hq
      have := hmin q (Finset.mem_range.mpr hq)
      have := hcompute q hq
      refine ⟨by omega, ?_⟩
      intro hge
      omega
    · intro q hq
      rw [issues_eq hq hm]
      exact List.getElem?_eq_getElem hissue

/-- The experts read the rows of their group, each as its own rank gave it. -/
theorem PipeInv.groupBatch (hcols : c.perToken = true → 0 < c.cols 3) {s : Nat → PipeRank X Y} (h : PipeInv c sizes d expert s)
    {r : Nat} (hr : r < sizes.length) {g : Nat × Nat} (hg : (c.groups sizes)[(s r).compute]? = some g)
    (hlt : (s r).compute < (s r).side) : GroupBatch c sizes d r g (expertBatch c sizes d r g (s r).gath) := by
  have hrows := (h r hr).gathered _ g hg hlt
  have htoken : ∀ root, g.1 ≤ root → root < g.2 → ∀ i < size sizes root,
      BatchRow c d (expertBatch c sizes d r g (s r).gath) r root i (offs sizes root + i - offs sizes g.1) := by
    intro root hlo hhi i hi
    obtain ⟨hstart, hstop⟩ := row_in_group hlo hhi hi
    exact batchRow hcols r (group_mem hg).2.2 (fun j hj => hrows j hj root hlo hhi i hi) hstart hstop
  refine ⟨htoken, ?_⟩
  intro row hrow
  have hrow : row < offs sizes g.2 - offs sizes g.1 := hrow
  obtain ⟨root, i, hlo, hhi, hi, heq⟩ := exists_token (show offs sizes g.1 ≤ offs sizes g.1 + row by omega)
    (show offs sizes g.1 + row < offs sizes g.2 by omega)
  have hbatch := htoken root hlo hhi i hi
  rw [heq, Nat.add_sub_cancel_left] at hbatch
  exact ⟨root, i, hlo, hhi, hi, hbatch⟩

variable (sizes) in
/-- The launches done. -/
def launches (s : Nat → PipeRank X Y) : Nat := ∑ r ∈ Finset.range sizes.length, ((s r).side + (s r).compute)

omit [AddCommMonoid Y] in
theorem launches_update {s : Nat → PipeRank X Y} {r : Nat} (hr : r < sizes.length) {x : PipeRank X Y}
    (hx : x.side + x.compute = (s r).side + (s r).compute + 1) : launches sizes (Function.update s r x) = launches sizes s + 1 := by
  have hmem := Finset.mem_range.mpr hr
  have hrest : ∑ q ∈ (Finset.range sizes.length).erase r, ((Function.update s r x q).side + (Function.update s r x q).compute) =
      ∑ q ∈ (Finset.range sizes.length).erase r, ((s q).side + (s q).compute) := by
    refine Finset.sum_congr rfl ?_
    intro q hq
    rw [Function.update_of_ne (Finset.ne_of_mem_erase hq)]
  unfold launches
  rw [← Finset.add_sum_erase _ _ hmem, hrest, ← Finset.add_sum_erase _ (fun q => (s q).side + (s q).compute) hmem, Function.update_self]
  omega

theorem PipeRun.launches {n : Nat} {s t : Nat → PipeRank X Y} (hrun : PipeRun c sizes d n s t) :
    launches sizes t = launches sizes s + n := by
  induction hrun with
  | nil _ => rfl
  | snoc _ hstep ih =>
    rw [← Nat.add_assoc, ← ih]
    cases hstep with
    | experts rank g junk hr _ _ => exact launches_update hr (by simp only [runExperts]; omega)
    | collectives rank launch hr _ _ => exact launches_update hr (by simp only [runCollectives]; omega)

theorem PipeInv.launches_le {s : Nat → PipeRank X Y} (h : PipeInv c sizes d expert s) :
    launches sizes s ≤ sizes.length * (3 * (c.groups sizes).length) := by
  have hle : ∀ r ∈ Finset.range sizes.length, (s r).side + (s r).compute ≤ 3 * (c.groups sizes).length := by
    intro r hr
    have := (h r (Finset.mem_range.mp hr)).ahead
    omega
  calc launches sizes s ≤ ∑ r ∈ Finset.range sizes.length, 3 * (c.groups sizes).length := Finset.sum_le_sum hle
    _ = (Finset.range sizes.length).card * (3 * (c.groups sizes).length) := Finset.sum_const_nat (fun _ _ => rfl)
    _ = sizes.length * (3 * (c.groups sizes).length) := by rw [Finset.card_range]

/-- The result of a rank that is finished. -/
theorem PipeInv.finished {s : Nat → PipeRank X Y} (h : PipeInv c sizes d expert s) (hdone : Finished c sizes s) {r i : Nat}
    (hr : r < sizes.length) (hi : i < size sizes r) :
    (s r).result i = ∑ q ∈ Finset.range sizes.length, expertRow c d expert q r i := by
  obtain ⟨k, g, hg, hlo, hhi⟩ := exists_group (c := c) hr
  have hk := (group_mem hg).1
  have hside := (hdone r hr).1
  exact (h r hr).reduced k g hg (by omega) hlo hhi i hi

end

/-! ## The pipe -/

theorem dpPipeApply_eq (c : DpPipe) {sizes : List Nat} (hsizes : c.sizes = some sizes) {r q : Nat} (hr : r < sizes.length)
    (hq : q < sizes.length) : c.dpPipeApply r = c.dpPipeApply q := by
  simp only [dpPipeApply, hsizes, Option.map_some, issues_eq hr hq]

/-- The ranks agree on what they issue, and every order of their steps ends, after
experts that read their own groups, with the sums of the experts' rows. -/
theorem dp_pipe_equals_plain {X Y : Type} [AddCommMonoid Y] (c : DpPipe) {sizes : List Nat} (hsizes : c.sizes = some sizes)
    (d : PipeData X Y) {expert : Nat → X → X → X → Option X → Y} (hf : d.RowWise expert)
    (hcols : c.perToken = true → 0 < c.cols 3) {s₀ : Nat → PipeRank X Y}
    (h₀ : ∀ r < sizes.length, (s₀ r).side = 0 ∧ (s₀ r).compute = 0) :
    (∀ r < sizes.length, ∀ q < sizes.length, c.dpPipeApply r = c.dpPipeApply q) ∧
    (∀ g ∈ c.groups sizes, offs sizes g.2 ≤ sizes.sum ∧
      (c.epDirectSum = true → offs sizes g.2 - offs sizes g.1 ≤ c.spare sizes)) ∧
    ∀ n s, PipeRun c sizes d n s₀ s →
      n ≤ sizes.length * (3 * (c.groups sizes).length) ∧
      (Finished c sizes s ∨ ∃ t, PipeStep c sizes d s t) ∧
      (∀ r < sizes.length, ∀ g, (c.groups sizes)[(s r).compute]? = some g → (s r).compute < (s r).side →
        GroupBatch c sizes d r g (expertBatch c sizes d r g (s r).gath) ∧
        ∀ junk row, row < sizes.sum → ¬(offs sizes g.1 ≤ row ∧ row < offs sizes g.2) →
          (runExperts c sizes d r g junk (s r)).moeFull row = (s r).moeFull row) ∧
      (Finished c sizes s → ∀ r < sizes.length, ∀ i < size sizes r,
        (s r).result i = ∑ q ∈ Finset.range sizes.length, expertRow c d expert q r i) := by
  refine ⟨fun r hr q hq => dpPipeApply_eq c hsizes hr hq, ?_, ?_⟩
  · intro g hg
    exact ⟨offs_le_sum (mem_groups hg).2, fun hdirect => rows_le_spare hdirect hg⟩
  · intro n s hrun
    have hinit : PipeInv c sizes d expert s₀ := fun r hr => .initial (h₀ r hr)
    have h := hrun.inv hf hcols hinit
    refine ⟨?_, h.progress, ?_, fun hdone r hr i hi => h.finished hdone hr hi⟩
    · have hcount := hrun.launches
      have hle := h.launches_le
      omega
    · intro r hr g hg hlt
      exact ⟨h.groupBatch hcols hr hg hlt, fun junk row hsum hin => runExperts_other junk hin hsum⟩

/-- Three ranks, one of them without tokens. -/
theorem dp_pipe_equals_plain_small :
    let c : DpPipe := ⟨true, true, some [1, 0, 2], true, false, 2, true, true, true, fun _ => 1, 1⟩
    let expert : Nat → Nat → Nat → Nat → Option Nat → Nat := fun rank h w e x => rank + h * w + e + x.getD 0
    let d : PipeData Nat Nat := ⟨fun r j i => 10 * r + j + i, fun _ => none,
      fun rank b i => expert rank (b.hiddenStates i) (b.topkWeights i) (b.topkIds i) (b.scale.at i)⟩
    let start : Nat → PipeRank Nat Nat := fun _ => ⟨0, 0, fun _ => 0, fun _ => 0, fun _ => 0⟩
    ∀ n s, PipeRun c [1, 0, 2] d n start s →
      n ≤ 18 ∧ (Finished c [1, 0, 2] s → (s 2).result 1 = ∑ q ∈ Finset.range 3, expertRow c d expert q 2 1) := by
  intro c expert d start n s hrun
  have hsizes : c.sizes = some [1, 0, 2] := rfl
  have hf : d.RowWise expert := fun _ _ _ _ => rfl
  have h₀ : ∀ r < [1, 0, 2].length, (start r).side = 0 ∧ (start r).compute = 0 := fun _ _ => ⟨rfl, rfl⟩
  obtain ⟨hbound, -, -, hresult⟩ := (dp_pipe_equals_plain c hsizes d hf (fun _ => Nat.one_pos) h₀).2.2 n s hrun
  exact ⟨hbound, fun hdone => hresult hdone 2 (by decide) 1 (by decide)⟩

end VllmHcu.Moe
