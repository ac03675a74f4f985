import VllmHcu.Swa.Decode
import VllmHcu.Lib.Loops
import VllmHcu.Lib.Prefix
import VllmHcu.Lib.RowMajor

/-!
# Every window key is admitted once

The chunks of a request start on a tile and cover the window of its first row
up to its last key. The tile in flight is always the tile of the next
iteration, and the masks leave of all tiles the window of a row. The rows of
the workspace are distinct, so the combine kernel reads the partials of the
request and row that own its token.
-/

namespace VllmHcu.Swa

/-! ## Tiles -/

section
variable (c : Launch) (blockRow : Nat → Nat)

/-- The cell of a key. -/
def keyAt (k : Nat) : Key := ⟨k, blockRow (k / c.page), k % c.page⟩

def tileAt (n0 : Nat) : Tile := ⟨blockRow (n0 / c.page), n0 % c.page⟩

/-- A tile lies in one page. -/
theorem tile_fits {n0 : Nat} (h : blockN ∣ n0) : n0 % c.page + blockN ≤ c.page := by
  obtain ⟨k, hk⟩ := c.blockN_dvd
  obtain ⟨a, rfl⟩ := h
  have hpos := c.page_pos
  have hk0 : 0 < k := by
    apply Nat.pos_of_ne_zero
    intro h0
    rw [h0] at hk
    omega
  rw [hk, Nat.mul_mod_mul_left]
  have hlt : a % k + 1 ≤ k := Nat.mod_lt a hk0
  calc blockN * (a % k) + blockN = blockN * (a % k + 1) := by ring
    _ ≤ blockN * k := Nat.mul_le_mul_left _ hlt

theorem keyAt_tile {n0 o : Nat} (h : blockN ∣ n0) (ho : o < blockN) :
    keyAt c blockRow (n0 + o) = ⟨n0 + o, (tileAt c blockRow n0).page, (tileAt c blockRow n0).row + o⟩ := by
  have hfits := tile_fits c h
  have hsplit : n0 + o = n0 / c.page * c.page + (n0 % c.page + o) := by
    have := Nat.div_add_mod' n0 c.page
    omega
  have hlt : n0 % c.page + o < c.page := by omega
  unfold keyAt tileAt
  dsimp only
  rw [hsplit, block_div hlt, block_mod hlt]

/-- Rounding a key down to its tile does not leave its page. -/
theorem page_of_tile (n : Nat) : n / blockN * blockN / c.page = n / c.page := by
  have htile : blockN ∣ n / blockN * blockN := Nat.dvd_mul_left ..
  have ho : n % blockN < blockN := Nat.mod_lt _ (by decide)
  have hkey := keyAt_tile c id htile ho
  rw [Nat.div_add_mod'] at hkey
  have := congrArg Key.page hkey
  exact this.symm

end

/-! ## The loop -/

section
variable (c : Launch) (blockRow : Nat → Nat) (seqLen qLen sp : Nat)

theorem blockN_dvd_start : blockN ∣ splitStart c seqLen qLen sp := by
  apply Nat.dvd_add (Nat.dvd_mul_left ..)
  exact Dvd.dvd.mul_left (by decide) sp

/-- A column that holds a key of the request, or the first one. -/
def ValidColumn (col : Nat) : Prop := col < max 1 (cdiv seqLen c.page)

theorem validColumn_of_lt {n : Nat} (h : n < seqLen ∨ n = 0) : ValidColumn c seqLen (n / c.page) := by
  unfold ValidColumn
  rcases h with h | rfl
  · apply lt_max_of_lt_right
    apply (lt_cdiv c.page_pos).mpr
    exact (Nat.div_mul_le_self n c.page).trans_lt h
  · rw [Nat.zero_div]
    exact lt_max_of_lt_left Nat.one_pos

/-- After `n` iterations. -/
structure LoopInv (start stop n : Nat) (st : LoopState) : Prop where
  used : st.used = (List.range n).map fun i => (start + i * blockN, tileAt c blockRow (start + i * blockN))
  tile : start + n * blockN < stop → st.tile = tileAt c blockRow (start + n * blockN)
  columns : ∀ col ∈ st.columns, ValidColumn c seqLen col

variable {c blockRow seqLen}

theorem firstLoad_inv {start stop : Nat} (hstart : blockN ∣ start) (hstop : stop ≤ seqLen) :
    LoopInv c blockRow seqLen start stop 0 (firstLoad c blockRow seqLen start) := by
  refine ⟨rfl, fun h => ?_, fun col hcol => ?_⟩
  · have hlt : start < seqLen := by omega
    have hn1 : max (min start (seqLen - 1)) 0 / blockN * blockN = start := by
      rw [Nat.max_zero, Nat.min_eq_left (by omega), Nat.div_mul_cancel hstart]
    unfold firstLoad
    dsimp only
    rw [hn1, Nat.zero_mul, Nat.add_zero]
    rfl
  · rw [firstLoad, List.mem_singleton] at hcol
    rw [hcol, page_of_tile]
    apply validColumn_of_lt
    rw [Nat.max_zero]
    omega

theorem LoopInv.step {start stop n : Nat} {st : LoopState} (h : LoopInv c blockRow seqLen start stop n st)
    (hstart : blockN ∣ start) (hstop : stop ≤ seqLen) (hn : start + n * blockN < stop) :
    LoopInv c blockRow seqLen start stop (n + 1) (iterate c blockRow stop st (start + n * blockN)) := by
  have hnext : start + (n + 1) * blockN = start + n * blockN + blockN := by rw [Nat.add_one_mul, Nat.add_assoc]
  refine ⟨?_, fun hlt => ?_, fun col hcol => ?_⟩
  · unfold iterate
    dsimp only
    rw [h.used, h.tile hn, List.range_succ, List.map_append]
    rfl
  · rw [hnext] at hlt ⊢
    have hdvd : blockN ∣ start + n * blockN + blockN :=
      Nat.dvd_add (Nat.dvd_add hstart (Nat.dvd_mul_left ..)) (Nat.dvd_refl _)
    unfold iterate
    dsimp only
    rw [Nat.min_eq_left (by omega), Nat.div_mul_cancel hdvd]
    rfl
  · unfold iterate at hcol
    rcases List.mem_append.mp hcol with hcol | hcol
    · exact h.columns col hcol
    · rw [List.mem_singleton] at hcol
      rw [hcol]
      apply validColumn_of_lt
      have hb : 0 < blockN := by decide
      omega

theorem foldl_inv {start stop : Nat} (hstart : blockN ∣ start) (hstop : stop ≤ seqLen) : ∀ {n : Nat},
    (∀ i < n, start + i * blockN < stop) →
      LoopInv c blockRow seqLen start stop n
        (((List.range n).map fun i => start + i * blockN).foldl (iterate c blockRow stop) (firstLoad c blockRow seqLen start))
  | 0, _ => firstLoad_inv hstart hstop
  | n + 1, h => by
    rw [List.range_succ, List.map_append, List.foldl_append]
    have ih := foldl_inv hstart hstop fun i hi => h i (Nat.lt_succ_of_lt hi)
    exact ih.step hstart hstop (h n (Nat.lt_succ_self n))

/-- The tile used by each iteration is the tile of its `n0`, and every column read is valid. -/
theorem splitLoop_inv :
    (splitLoop c blockRow seqLen qLen sp).used =
        (strided (splitStart c seqLen qLen sp) (splitEnd c seqLen qLen sp) blockN).map (fun n0 => (n0, tileAt c blockRow n0)) ∧
      ∀ col ∈ (splitLoop c blockRow seqLen qLen sp).columns, ValidColumn c seqLen col := by
  have hstop : splitEnd c seqLen qLen sp ≤ seqLen := Nat.min_le_right _ _
  have hiter : ∀ i < cdiv (splitEnd c seqLen qLen sp - splitStart c seqLen qLen sp) blockN,
      splitStart c seqLen qLen sp + i * blockN < splitEnd c seqLen qLen sp := by
    intro i hi
    have := (lt_cdiv (by decide)).mp hi
    omega
  have hinv := @foldl_inv c blockRow seqLen _ _ (blockN_dvd_start c seqLen qLen sp) hstop _ hiter
  refine ⟨?_, hinv.columns⟩
  unfold strided
  rw [List.map_map]
  exact hinv.used

end

/-! ## The window of a row -/

theorem filter_range'_extend {p : Nat → Bool} {a n m : Nat} (hnm : n ≤ m) (hp : ∀ k, a + n ≤ k → k < a + m → p k = false) :
    (List.range' a m).filter p = (List.range' a n).filter p := by
  obtain ⟨d, rfl⟩ := Nat.exists_eq_add_of_le hnm
  rw [← List.range'_append_1, List.filter_append]
  have hrest : (List.range' (a + n) d).filter p = [] := by
    apply List.filter_eq_nil_iff.mpr
    intro k hk
    have := List.mem_range'_1.mp hk
    rw [hp k this.1 (by omega)]
    exact Bool.false_ne_true
  rw [hrest, List.append_nil]

theorem filter_range'_window {a n lo hi : Nat} (halo : a ≤ lo) (hhi : hi < a + n) (hlo : lo ≤ hi) :
    (List.range' a n).filter (fun k => decide (lo ≤ k) && decide (k ≤ hi)) = List.range' lo (hi + 1 - lo) := by
  have hsplit : List.range' a n =
      List.range' a (lo - a) ++ (List.range' lo (hi + 1 - lo) ++ List.range' (hi + 1) (a + n - (hi + 1))) := by
    have hmid : lo + (hi + 1 - lo) = hi + 1 := by omega
    have hleft : a + (lo - a) = lo := by omega
    have hright := @List.range'_append_1 lo (hi + 1 - lo) (a + n - (hi + 1))
    have hall := @List.range'_append_1 a (lo - a) (hi + 1 - lo + (a + n - (hi + 1)))
    rw [hmid] at hright
    rw [hleft] at hall
    rw [hright, hall]
    congr 1
    omega
  rw [hsplit, List.filter_append, List.filter_append]
  have hbefore : (List.range' a (lo - a)).filter (fun k => decide (lo ≤ k) && decide (k ≤ hi)) = [] := by
    apply List.filter_eq_nil_iff.mpr
    intro k hk
    have := List.mem_range'_1.mp hk
    simp only [Bool.and_eq_true, decide_eq_true_eq]
    omega
  have hafter : (List.range' (hi + 1) (a + n - (hi + 1))).filter (fun k => decide (lo ≤ k) && decide (k ≤ hi)) = [] := by
    apply List.filter_eq_nil_iff.mpr
    intro k hk
    have := List.mem_range'_1.mp hk
    simp only [Bool.and_eq_true, decide_eq_true_eq]
    omega
  have hinside : (List.range' lo (hi + 1 - lo)).filter (fun k => decide (lo ≤ k) && decide (k ≤ hi)) =
      List.range' lo (hi + 1 - lo) := by
    apply List.filter_eq_self.mpr
    intro k hk
    have := List.mem_range'_1.mp hk
    simp only [Bool.and_eq_true, decide_eq_true_eq]
    omega
  rw [hbefore, hafter, hinside, List.nil_append, List.append_nil]

section
variable (c : Launch) (blockRow : Nat → Nat) (seqLen qLen sp tok : Nat)

/-- The mask of a row. -/
def inWindow (k : Nat) : Bool := decide (loRow c seqLen qLen tok ≤ k) && decide (k ≤ rowPos seqLen qLen tok)

theorem validKeys_tile {n0 : Nat} (h : blockN ∣ n0) :
    validKeys c seqLen qLen tok (n0, tileAt c blockRow n0) =
      ((List.range' n0 blockN).filter (inWindow c seqLen qLen tok)).map (keyAt c blockRow) := by
  unfold validKeys
  rw [List.range'_eq_map_range, List.filter_map, List.map_map]
  apply List.map_congr_left
  intro o ho
  have hlt : o < blockN := List.mem_range.mp (List.mem_of_mem_filter ho)
  exact (keyAt_tile c blockRow h hlt).symm

/-- A program admits the keys of its chunk that are in the window of the row. -/
theorem admitted_eq (htok : tok < qLen) (hq : qLen ≤ seqLen) :
    admitted c blockRow seqLen qLen sp tok =
      ((List.range' (splitStart c seqLen qLen sp) chunk).filter (inWindow c seqLen qLen tok)).map (keyAt c blockRow) := by
  unfold admitted
  rw [(splitLoop_inv qLen sp).1, List.flatMap_map]
  have htiles : (strided (splitStart c seqLen qLen sp) (splitEnd c seqLen qLen sp) blockN).flatMap
        (fun n0 => validKeys c seqLen qLen tok (n0, tileAt c blockRow n0)) =
      (((strided (splitStart c seqLen qLen sp) (splitEnd c seqLen qLen sp) blockN).flatMap fun n0 =>
        List.range' n0 blockN).filter (inWindow c seqLen qLen tok)).map (keyAt c blockRow) := by
    rw [List.filter_flatMap, List.map_flatMap]
    apply List.flatMap_congr
    intro n0 hn0
    obtain ⟨i, rfl, _⟩ := (mem_strided (by decide)).mp hn0
    exact validKeys_tile c blockRow seqLen qLen tok
      (Nat.dvd_add (blockN_dvd_start c seqLen qLen sp) (Nat.dvd_mul_left ..))
  rw [htiles, flatMap_strided]
  congr 1
  symm
  apply filter_range'_extend
  · have hle : splitEnd c seqLen qLen sp - splitStart c seqLen qLen sp ≤ 64 := by
      have : splitEnd c seqLen qLen sp ≤ splitStart c seqLen qLen sp + 64 := Nat.min_le_left _ _
      omega
    have := roundUp_le (splitEnd c seqLen qLen sp - splitStart c seqLen qLen sp) (y := 32) (by decide)
    unfold cdiv chunk blockN
    omega
  · intro k hk hk'
    have hcover := le_cdiv_mul (splitEnd c seqLen qLen sp - splitStart c seqLen qLen sp) (b := blockN) (by decide)
    have hend : splitEnd c seqLen qLen sp = min (splitStart c seqLen qLen sp + chunk) seqLen := rfl
    have hpast : rowPos seqLen qLen tok < k := by
      unfold rowPos
      omega
    rw [inWindow, Bool.and_eq_false_iff]
    exact .inr (decide_eq_false (Nat.not_le.mpr hpast))

/-- Over all splits a row admits every key of its window exactly once, in order. -/
theorem admitted_window (hmax : qLen ≤ maxQueryLen) (hq : qLen ≤ seqLen) (htok : tok < qLen) :
    ((List.range c.numSplits).flatMap fun sp => admitted c blockRow seqLen qLen sp tok) =
      (List.range' (loRow c seqLen qLen tok) (rowPos seqLen qLen tok + 1 - loRow c seqLen qLen tok)).map
        (keyAt c blockRow) := by
  have hchunks : ((List.range c.numSplits).flatMap fun sp => admitted c blockRow seqLen qLen sp tok) =
      (((List.range c.numSplits).flatMap fun sp => List.range' (splitStart c seqLen qLen sp) chunk).filter
        (inWindow c seqLen qLen tok)).map (keyAt c blockRow) := by
    rw [List.filter_flatMap, List.map_flatMap]
    apply List.flatMap_congr
    intro sp _
    exact admitted_eq c blockRow seqLen qLen sp tok htok hq
  rw [hchunks]
  unfold splitStart
  rw [flatMap_range']
  congr 1
  have hsplits := le_cdiv_mul (c.windowLeft + maxQueryLen + blockN - 1) (b := chunk) (by decide)
  have horigin := Nat.div_add_mod' (seqLen - qLen - c.windowLeft) blockN
  have hmod := Nat.mod_lt (seqLen - qLen - c.windowLeft) (show blockN > 0 by decide)
  have hb : blockN = 32 := rfl
  have hm : maxQueryLen = 4 := rfl
  apply filter_range'_window
  · unfold loRow rowPos
    omega
  · unfold rowPos Launch.numSplits
    omega
  · unfold loRow
    omega

end

/-! ## Workspace -/

section
variable {β γ : Type*} (c : Launch) (b : Batch)

/-- The workspace row of a program's row `m`. -/
def wsRow (p : Program) (m : Nat) : Nat :=
  ((p.r * c.numKvHeads + p.kvh) * c.numSplits + p.sp) * c.blockM + m

theorem wsRow_inj {p p' : Program} {m m' : Nat} (hk : p.kvh < c.numKvHeads) (hk' : p'.kvh < c.numKvHeads)
    (hs : p.sp < c.numSplits) (hs' : p'.sp < c.numSplits) (hm : m < c.blockM) (hm' : m' < c.blockM)
    (h : wsRow c p m = wsRow c p' m') : p = p' ∧ m = m' := by
  unfold wsRow at h
  have hmod := congrArg (· % c.blockM) h
  have hdiv := congrArg (· / c.blockM) h
  simp only [block_mod hm, block_mod hm', block_div hm, block_div hm'] at hmod hdiv
  have hsp := congrArg (· % c.numSplits) hdiv
  have hrow := congrArg (· / c.numSplits) hdiv
  simp only [block_mod hs, block_mod hs', block_div hs, block_div hs'] at hsp hrow
  have hkvh := congrArg (· % c.numKvHeads) hrow
  have hr := congrArg (· / c.numKvHeads) hrow
  simp only [block_mod hk, block_mod hk', block_div hk, block_div hk'] at hkvh hr
  cases p
  cases p'
  simp only at hr hkvh hsp
  subst hr hkvh hsp
  exact ⟨rfl, hmod⟩

theorem mem_grid {p : Program} :
    p ∈ grid c b ↔ p.r < b.numSeqs ∧ p.kvh < c.numKvHeads ∧ p.sp < c.numSplits := by
  cases p
  simp [grid]

/-- The 32-bit element offsets of both kernels stay in range where the whole workspace does. -/
theorem wsRow_fits (hfits : b.numSeqs * c.numKvHeads * c.numSplits * c.blockM * 192 ≤ 2 ^ 31) {p : Program} (hp : p ∈ grid c b)
    {m d : Nat} (hm : m < c.blockM) (hd : d < 192) : wsRow c p m * 192 + d < 2 ^ 31 := by
  obtain ⟨hr, hk, hs⟩ := (mem_grid c b).mp hp
  have hrow : wsRow c p m < b.numSeqs * c.numKvHeads * c.numSplits * c.blockM :=
    block_lt (block_lt (block_lt hr hk) hs) hm
  exact (block_lt hrow hd).trans_le hfits

/-- What a program computes for its row `m`. -/
def rowPartial (partialOf : Option (Nat × Nat) → List Key → β) (p : Program) (m : Nat) : β :=
  partialOf (if m / c.group < b.qLen p.r then some (b.cuSeqlensQ p.r + m / c.group, p.kvh * c.group + m % c.group) else none)
    (admitted c (b.blockTable p.r) (b.sequsedK p.r) (b.qLen p.r) p.sp (m / c.group))

theorem program_eq (partialOf : Option (Nat × Nat) → List Key → β) (p : Program) :
    program c b partialOf p = (List.range c.blockM).map fun m => (wsRow c p m, rowPartial c b partialOf p m) := rfl

/-- In whatever order the programs run, a row of the workspace holds its program's partial. -/
theorem splitKernel_row (partialOf : Option (Nat × Nat) → List Key → β) {order : List Program}
    (horder : order.Perm (grid c b)) (ws : Nat → β) {p : Program} (hp : p ∈ grid c b) {m : Nat} (hm : m < c.blockM) :
    splitKernel c b partialOf order ws (wsRow c p m) = rowPartial c b partialOf p m := by
  obtain ⟨_, hk, hs⟩ := (mem_grid c b).mp hp
  unfold splitKernel
  apply scatter_eq_of_agree
  · intro w hw he
    obtain ⟨p', hp', hw⟩ := List.mem_flatMap.mp hw
    rw [program_eq] at hw
    obtain ⟨m', hm', rfl⟩ := List.mem_map.mp hw
    obtain ⟨_, hk', hs'⟩ := (mem_grid c b).mp (horder.mem_iff.mp hp')
    obtain ⟨rfl, rfl⟩ := wsRow_inj c hk' hk hs' hs (List.mem_range.mp hm') hm he
    rfl
  · refine .inr ⟨(wsRow c p m, rowPartial c b partialOf p m), ?_, rfl⟩
    apply List.mem_flatMap.mpr
    refine ⟨p, horder.mem_iff.mpr hp, ?_⟩
    rw [program_eq]
    exact List.mem_map.mpr ⟨m, List.mem_range.mpr hm, rfl⟩

/-! ## Owner of a token row -/

theorem cu_le {i j : Nat} (hij : i ≤ j) (hj : j ≤ b.numSeqs) : b.cuSeqlensQ i ≤ b.cuSeqlensQ j := by
  exact le_of_steps b.cu_mono hij hj

theorem numSeqs_le_seqsP2 : b.numSeqs ≤ seqsP2 b :=
  (Nat.le_pow_clog Nat.one_lt_two _).trans (Nat.le_max_left _ _)

theorem exists_owner {t : Nat} (ht : t < b.cuSeqlensQ b.numSeqs) :
    ∃ r < b.numSeqs, b.cuSeqlensQ r ≤ t ∧ t < b.cuSeqlensQ (r + 1) := by
  apply exists_crossing _ ht
  rw [b.cu_zero]
  exact Nat.zero_le t

/-- The end of request `i` in `ends`, with the padding of the vector. -/
def endOf (i : Nat) : Nat := if i < b.numSeqs then b.cuSeqlensQ (1 + i) else 2147483647

theorem endOf_lt {i : Nat} (hi : i < b.numSeqs) : endOf b i = b.cuSeqlensQ (i + 1) := by
  rw [endOf, if_pos hi, Nat.add_comm]

theorem le_endOf {r i : Nat} (hr : r < b.numSeqs) (hri : r ≤ i) : b.cuSeqlensQ (r + 1) ≤ endOf b i := by
  by_cases hi : i < b.numSeqs
  · rw [endOf_lt b hi]
    exact cu_le b (Nat.succ_le_succ hri) hi
  · rw [endOf, if_neg hi]
    exact (cu_le b hr (Nat.le_refl _)).trans b.cu_bound

/-- The requests that are done before a token of request `r`. -/
theorem done_of_owner {r t : Nat} (hr : r < b.numSeqs) (hlo : b.cuSeqlensQ r ≤ t) (hhi : t < b.cuSeqlensQ (r + 1)) :
    (ends b).filter (fun e => decide (e ≤ t)) = (List.range r).map fun i => b.cuSeqlensQ (i + 1) := by
  obtain ⟨d, hd⟩ := Nat.exists_eq_add_of_le (hr.le.trans (numSeqs_le_seqsP2 b))
  have hbefore : (List.range r).filter (fun i => decide (endOf b i ≤ t)) = List.range r := by
    apply List.filter_eq_self.mpr
    intro i hi
    have hi : i < r := List.mem_range.mp hi
    rw [endOf_lt b (hi.trans hr)]
    exact decide_eq_true ((cu_le b (Nat.succ_le_of_lt hi) hr.le).trans hlo)
  have hafter : ((List.range d).map (r + ·)).filter (fun i => decide (endOf b i ≤ t)) = [] := by
    apply List.filter_eq_nil_iff.mpr
    intro i hi
    obtain ⟨k, _, rfl⟩ := List.mem_map.mp hi
    have := le_endOf b hr (Nat.le_add_right r k)
    simp only [decide_eq_true_eq]
    omega
  have hends : ends b = (List.range (seqsP2 b)).map (endOf b) := rfl
  rw [hends, List.filter_map, Function.comp_def, hd, List.range_add, List.filter_append, hbefore, hafter, List.append_nil]
  apply List.map_congr_left
  intro i hi
  exact endOf_lt b ((List.mem_range.mp hi).trans hr)

theorem foldl_max_ends {r : Nat} (hr : r ≤ b.numSeqs) :
    ((List.range r).map fun i => b.cuSeqlensQ (i + 1)).foldl max 0 = b.cuSeqlensQ r := by
  induction r with
  | zero => exact b.cu_zero.symm
  | succ r ih =>
    rw [List.range_succ, List.map_append, List.foldl_append, ih (by omega)]
    exact Nat.max_eq_right (b.cu_mono r hr)

/-- All requests are done at a token past the last one. -/
theorem done_of_past {t : Nat} (ht : b.cuSeqlensQ b.numSeqs ≤ t) :
    b.numSeqs ≤ ((ends b).filter fun e => decide (e ≤ t)).length := by
  obtain ⟨d, hd⟩ := Nat.exists_eq_add_of_le (numSeqs_le_seqsP2 b)
  have hends : ends b = (List.range (seqsP2 b)).map (endOf b) := rfl
  have hfirst : (List.range b.numSeqs).filter (fun i => decide (endOf b i ≤ t)) = List.range b.numSeqs := by
    apply List.filter_eq_self.mpr
    intro i hi
    have hi : i < b.numSeqs := List.mem_range.mp hi
    rw [endOf_lt b hi]
    exact decide_eq_true ((cu_le b hi (Nat.le_refl _)).trans ht)
  rw [hends, List.filter_map, Function.comp_def, List.length_map, hd, List.range_add, List.filter_append, hfirst,
    List.length_append, List.length_range]
  exact Nat.le_add_right _ _

variable (merge : γ → β → γ) (init : γ) (partialOf : Option (Nat × Nat) → List Key → β)

theorem combineRow_past (ws : Nat → β) {t : Nat} (ht : b.cuSeqlensQ b.numSeqs ≤ t) (h : Nat) :
    combineRow c b merge init ws t h = none := if_pos (done_of_past b ht)

/-- The merge of a token row reads the partials of its own request, row and head. -/
theorem combineRow_owner {order : List Program} (horder : order.Perm (grid c b)) (ws : Nat → β) {r t h : Nat}
    (hr : r < b.numSeqs) (hlo : b.cuSeqlensQ r ≤ t) (hhi : t < b.cuSeqlensQ (r + 1)) (hh : h < c.numKvHeads * c.group) :
    combineRow c b merge init (splitKernel c b partialOf order ws) t h =
      some ((List.range c.numSplits).foldl (fun acc s => merge acc (partialOf (some (t, h))
        (admitted c (b.blockTable r) (b.sequsedK r) (b.qLen r) s (t - b.cuSeqlensQ r)))) init) := by
  have htok : t - b.cuSeqlensQ r < maxQueryLen := by
    have := b.max_seqlen_q r hr
    omega
  have hmod : h % c.group < c.group := Nat.mod_lt _ c.group_pos
  have hm : (t - b.cuSeqlensQ r) * c.group + h % c.group < c.blockM := block_lt htok hmod
  have hkvh : h / c.group < c.numKvHeads := (Nat.div_lt_iff_lt_mul c.group_pos).mpr hh
  unfold combineRow
  rw [done_of_owner b hr hlo hhi]
  dsimp only
  rw [List.length_map, List.length_range, if_neg (Nat.not_le.mpr hr), foldl_max_ends b hr.le]
  congr 1
  apply List.foldl_ext
  intro acc s hs
  have hs : s < c.numSplits := List.mem_range.mp hs
  have hidx : (r * c.numKvHeads + h / c.group) * c.numSplits * c.blockM + (t - b.cuSeqlensQ r) * c.group + h % c.group +
      s * c.blockM = wsRow c ⟨r, h / c.group, s⟩ ((t - b.cuSeqlensQ r) * c.group + h % c.group) := by
    unfold wsRow
    ring
  rw [hidx, splitKernel_row c b partialOf horder ws ((mem_grid c b).mpr ⟨hr, hkvh, hs⟩) hm]
  unfold rowPartial
  have hown : t - b.cuSeqlensQ r < b.qLen r := by
    unfold Batch.qLen
    omega
  rw [block_div hmod, block_mod hmod, if_pos hown, Nat.add_sub_cancel' hlo, Nat.div_add_mod']

end

/-- What the split and combine kernels do on a batch, whatever the order of the programs. -/
structure SwaDecodeSpec {β γ : Type*} (c : Launch) (b : Batch) (merge : γ → β → γ) (init : γ)
    (partialOf : Option (Nat × Nat) → List Key → β) : Prop where
  window : ∀ r < b.numSeqs, ∀ tok < b.qLen r,
    ((List.range c.numSplits).flatMap fun sp => admitted c (b.blockTable r) (b.sequsedK r) (b.qLen r) sp tok) =
      (List.range' (loRow c (b.sequsedK r) (b.qLen r) tok)
        (rowPos (b.sequsedK r) (b.qLen r) tok + 1 - loRow c (b.sequsedK r) (b.qLen r) tok)).map (keyAt c (b.blockTable r))
  prefetch : ∀ r sp, ∀ u ∈ (splitLoop c (b.blockTable r) (b.sequsedK r) (b.qLen r) sp).used,
    u.2 = tileAt c (b.blockTable r) u.1 ∧ u.1 % c.page + blockN ≤ c.page
  columns : ∀ r sp, ∀ col ∈ (splitLoop c (b.blockTable r) (b.sequsedK r) (b.qLen r) sp).columns,
    col < max 1 (cdiv (b.sequsedK r) c.page)
  past : ∀ (ws : Nat → β) t h, b.cuSeqlensQ b.numSeqs ≤ t → combineRow c b merge init ws t h = none
  owned : ∀ t < b.cuSeqlensQ b.numSeqs, ∃ r < b.numSeqs, b.cuSeqlensQ r ≤ t ∧ t < b.cuSeqlensQ (r + 1) ∧
    ∀ (order : List Program) (ws : Nat → β), order.Perm (grid c b) → ∀ h < c.numKvHeads * c.group,
      combineRow c b merge init (splitKernel c b partialOf order ws) t h =
        some ((List.range c.numSplits).foldl (fun acc s => merge acc (partialOf (some (t, h))
          (admitted c (b.blockTable r) (b.sequsedK r) (b.qLen r) s (t - b.cuSeqlensQ r)))) init)

/-- A window of 101 keys, two KV heads with eight query heads each. -/
def smallLaunch : Launch where
  windowLeft := 100
  group := 8
  numKvHeads := 2
  page := 64
  group_pos := Nat.succ_pos 7
  page_pos := Nat.succ_pos 63
  blockN_dvd := by decide

/-- Four queries on 203 keys, an empty request, two queries on 77 keys. -/
def smallBatch : Batch where
  numSeqs := 3
  cuSeqlensQ := fun r => [0, 4, 4, 6].getD r 6
  sequsedK := fun r => [203, 0, 77].getD r 0
  blockTable := fun r col => 10 * r + 3 - col
  cu_zero := rfl
  cu_mono := by decide
  cu_bound := by decide
  max_seqlen_q := by decide
  le_seqused := by decide

/-- The workspace after the programs have run backwards: a partial is the list of its positions. -/
def smallWorkspace : Nat → List Nat :=
  splitKernel smallLaunch smallBatch (fun _ keys => keys.map (·.pos)) (grid smallLaunch smallBatch).reverse fun _ => []

end VllmHcu.Swa
