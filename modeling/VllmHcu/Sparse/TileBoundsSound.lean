import VllmHcu.Sparse.Tiles
import VllmHcu.Lib.RowMajor
import VllmHcu.Lib.Ragged
import VllmHcu.Lib.Ranges

/-!
# Tiles of a batch

The host loop and the device arithmetic cut the rows into the same runs: maximal
ranges of one request in one group. The pieces of the runs are the tiles.
-/

namespace VllmHcu.Sparse

/-! ## The runs -/

section
variable (request : Nat → Int) (totalQ : Nat)

theorem runEnd_spec (r : Int) (groupEnd e : Nat) (he : e ≤ groupEnd) :
    runEnd request r groupEnd e ≤ groupEnd ∧ (∀ row, e ≤ row → row < runEnd request r groupEnd e → request row = r) ∧
    (runEnd request r groupEnd e < groupEnd → request (runEnd request r groupEnd e) ≠ r) := by
  induction e using runEnd.induct request r groupEnd with
  | case1 e h ih =>
    rw [runEnd, if_pos h]
    obtain ⟨hle, hsame, hnext⟩ := ih h.1
    refine ⟨hle, fun row hrow hlt => ?_, hnext⟩
    rcases hrow.eq_or_lt with rfl | hgt
    · exact h.2
    · exact hsame row hgt hlt
  | case2 e h =>
    rw [runEnd, if_neg h]
    exact ⟨he, fun row hrow hlt => by omega, fun hlt heq => h ⟨hlt, heq⟩⟩

/-- One request and one group: the rows from `run.1` to `run.2`. -/
structure OneRun (group : Nat) (run : Nat × Nat) : Prop where
  request : ∀ row, run.1 ≤ row → row < run.2 → request row = request run.1
  start : group * totalQ ≤ run.1
  stop : run.2 ≤ group * totalQ + totalQ

/-- The runs of a group from a run start on. -/
theorem hostRuns_spec (group start : Nat) (hlo : group * totalQ ≤ start) (hhi : start ≤ group * totalQ + totalQ)
    (hstart : start < group * totalQ + totalQ → startsRun request totalQ start = true) :
    Chained start (hostRuns request (group * totalQ + totalQ) start) (group * totalQ + totalQ) ∧
    (List.range' start (group * totalQ + totalQ - start)).filter (startsRun request totalQ) =
      (hostRuns request (group * totalQ + totalQ) start).map Prod.fst ∧
    ∀ run ∈ hostRuns request (group * totalQ + totalQ) start, OneRun request totalQ group run := by
  induction start using hostRuns.induct request (group * totalQ + totalQ) with
  | case1 start h stop ih =>
    obtain ⟨hle, hsame, hnext⟩ := runEnd_spec request (request start) (group * totalQ + totalQ) (start + 1) h
    have hgt := le_runEnd request (request start) (group * totalQ + totalQ) (start + 1)
    have hstop : stop < group * totalQ + totalQ → startsRun request totalQ stop = true := by
      intro hlt
      have hprev : request (stop - 1) = request start := by
        rcases Nat.eq_or_lt_of_le hgt with heq | hlt'
        · have : stop - 1 = start := by omega
          rw [this]
        · exact hsame _ (by omega) (by omega)
      have hne : request stop ≠ request (stop - 1) := hprev ▸ hnext hlt
      simp [startsRun, hne]
    obtain ⟨hchain, hfilter, hruns⟩ := ih (by omega) hle hstop
    rw [hostRuns, if_pos h]
    refine ⟨⟨rfl, hgt, hchain⟩, ?_, fun run hrun => ?_⟩
    · have hsplit : List.range' start (group * totalQ + totalQ - start) =
          start :: (List.range' (start + 1) (stop - (start + 1)) ++ List.range' stop (group * totalQ + totalQ - stop)) := by
        have h₁ : group * totalQ + totalQ - start =
            (stop - (start + 1)) + (group * totalQ + totalQ - stop) + 1 := by omega
        have h₂ : start + 1 + (stop - (start + 1)) = stop := by omega
        rw [h₁, List.range'_succ, ← List.range'_append_1, h₂]
      have hmid : (List.range' (start + 1) (stop - (start + 1))).filter (startsRun request totalQ) = [] := by
        refine List.filter_eq_nil_iff.mpr fun row hrow => ?_
        obtain ⟨hrow₁, hrow₂⟩ := List.mem_range'_1.mp hrow
        have hrow' : request row = request (row - 1) := by
          rw [hsame row hrow₁ (by omega)]
          rcases Nat.eq_or_lt_of_le hrow₁ with heq | hlt
          · rw [← heq, Nat.add_sub_cancel]
          · exact (hsame (row - 1) (by omega) (by omega)).symm
        have hmod : row % totalQ ≠ 0 := by
          have hoff : row = (row - group * totalQ) + group * totalQ := by omega
          rw [hoff, Nat.add_mul_mod_self_right, Nat.mod_eq_of_lt (by omega)]
          omega
        simp [startsRun, hrow', hmod]
        omega
      rw [hsplit, List.filter_cons_of_pos (hstart h), List.filter_append, hmid, List.nil_append, hfilter]
      rfl
    · rcases List.mem_cons.mp hrun with rfl | hrun
      · refine ⟨fun row hrow hlt => ?_, hlo, hle⟩
        rcases Nat.eq_or_lt_of_le hrow with rfl | hgt'
        · rfl
        · exact hsame row hgt' hlt
      · exact hruns run hrun
  | case2 start h =>
    obtain rfl : start = group * totalQ + totalQ := by omega
    rw [hostRuns, if_neg h]
    exact ⟨rfl, by simp, by simp⟩

/-- The runs of all groups. -/
def allRuns (groups : Nat) : List (Nat × Nat) :=
  (List.range groups).flatMap fun group => hostRuns request (group * totalQ + totalQ) (group * totalQ)

theorem allRuns_spec (groups : Nat) :
    Chained 0 (allRuns request totalQ groups) (groups * totalQ) ∧
    (List.range (groups * totalQ)).filter (startsRun request totalQ) = (allRuns request totalQ groups).map Prod.fst ∧
    ∀ run ∈ allRuns request totalQ groups, ∃ group < groups, OneRun request totalQ group run := by
  induction groups with
  | zero => simp [allRuns, Chained]
  | succ groups ih =>
    obtain ⟨hchain, hfilter, hruns⟩ := ih
    have hzero : startsRun request totalQ (groups * totalQ) = true := by simp [startsRun]
    obtain ⟨hchain', hfilter', hruns'⟩ := hostRuns_spec request totalQ groups (groups * totalQ) le_rfl (Nat.le_add_right ..)
      fun _ => hzero
    have hsucc : allRuns request totalQ (groups + 1) =
        allRuns request totalQ groups ++ hostRuns request (groups * totalQ + totalQ) (groups * totalQ) := by
      simp [allRuns, List.range_succ]
    rw [hsucc, Nat.succ_mul]
    refine ⟨hchain.append hchain', ?_, fun run hrun => ?_⟩
    · rw [Nat.add_sub_cancel_left] at hfilter'
      rw [List.range_eq_range', ← List.range'_append_1, List.filter_append, ← List.range_eq_range', hfilter, Nat.zero_add,
        hfilter', List.map_append]
    · rcases List.mem_append.mp hrun with hrun | hrun
      · obtain ⟨group, hg, h⟩ := hruns run hrun
        exact ⟨group, by omega, h⟩
      · exact ⟨groups, Nat.lt_succ_self _, hruns' run hrun⟩

end

/-! ## The pieces of the runs -/

section
variable {blockQ : Nat}

theorem hostPieces_length (run : Nat × Nat) : (hostPieces blockQ run).length = cdiv (run.2 - run.1) blockQ := by
  simp [hostPieces, strided]

theorem hostPieces_getElem? {run : Nat × Nat} {i : Nat} (hi : i < cdiv (run.2 - run.1) blockQ) :
    (hostPieces blockQ run)[i]? = some ⟨run.1 + i * blockQ, min blockQ (run.2 - (run.1 + i * blockQ))⟩ := by
  simp [hostPieces, strided, hi]

theorem hostPieces_rows (hb : 0 < blockQ) (run : Nat × Nat) :
    (hostPieces blockQ run).flatMap (fun t => List.range' t.start t.count) = List.range' run.1 (run.2 - run.1) := by
  have htile : ∀ k ∈ List.range (cdiv (run.2 - run.1) blockQ),
      List.range' (run.1 + k * blockQ) (min blockQ (run.2 - (run.1 + k * blockQ))) = tile run.1 (run.2 - run.1) blockQ k := by
    intro k hk
    have hlt : k * blockQ < run.2 - run.1 := (lt_cdiv hb).mp (List.mem_range.mp hk)
    rw [tile, Nat.min_eq_right hlt.le, Nat.succ_mul]
    congr 1
    omega
  rw [hostPieces, List.flatMap_map, strided, List.flatMap_map, List.flatMap_congr htile, flatMap_tile,
    Nat.min_eq_left (le_cdiv_mul _ hb)]

/-- A piece of a run has rows, at most `block_q`, and stays in the run. -/
theorem hostPieces_inside (hb : 0 < blockQ) {run : Nat × Nat} {t : TileBound} (ht : t ∈ hostPieces blockQ run) :
    0 < t.count ∧ t.count ≤ blockQ ∧ run.1 ≤ t.start ∧ t.start + t.count ≤ run.2 := by
  obtain ⟨start, hs, rfl⟩ := List.mem_map.mp ht
  obtain ⟨i, rfl, hlt⟩ := (mem_strided hb).mp hs
  dsimp only
  omega

/-- The arithmetic on the device, given the runs. -/
theorem deviceTileBounds_eq {request : Nat → Int} {totalQ rows : Nat} {runs : List (Nat × Nat)} (hchain : Chained 0 runs rows)
    (hstarts : (List.range rows).filter (startsRun request totalQ) = runs.map Prod.fst) :
    deviceTileBounds request totalQ blockQ rows = runs.flatMap (hostPieces blockQ) := by
  have hlengths : List.zipWith (fun stop start => stop - start) ((runs.map Prod.fst).tail ++ [rows]) (runs.map Prod.fst) =
      runs.map fun run => run.2 - run.1 := by
    by_cases hne : runs = []
    · simp [hne]
    · rw [hchain.ends hne, List.zipWith_map]
      simp [List.zipWith_self]
  unfold deviceTileBounds
  simp only [hstarts, hlengths]
  generalize htiles : (runs.map fun run => run.2 - run.1).map (fun length => cdiv length blockQ) = tiles
  have htiles' : ∀ k : Nat, tiles[k]? = runs[k]?.map fun run : Nat × Nat => cdiv (run.2 - run.1) blockQ := by
    intro k
    simp [← htiles, Function.comp_def]
  let off := fun k => (tiles.take k).sum
  let len := fun k => tiles.getD k 0
  have hoff : ∀ k, off (k + 1) = off k + len k := by
    intro k
    by_cases hk : k < tiles.length
    · simp only [off, len, List.getD_eq_getElem?_getD, List.getElem?_eq_getElem hk, Option.getD_some]
      rw [List.take_succ_eq_append_getElem hk, List.sum_append, List.sum_singleton]
    · simp only [off, len, List.getD_eq_getElem?_getD, List.getElem?_eq_none (Nat.le_of_not_lt hk), Option.getD_none]
      rw [List.take_of_length_le (by omega), List.take_of_length_le (by omega), Nat.add_zero]
  have hall : runs.flatMap (hostPieces blockQ) =
      (List.range runs.length).flatMap fun k => hostPieces blockQ (runs.getD k (0, 0)) := by
    have hget : (List.range runs.length).map (fun k => runs.getD k (0, 0)) = runs := by
      refine List.ext_getElem? fun k => ?_
      by_cases hk : k < runs.length
      · simp [hk]
      · simp [hk]
    conv_lhs => rw [← hget]
    rw [List.flatMap_map]
  have hlen : tiles.length = runs.length := by simp [← htiles]
  have htotal : off runs.length = tiles.sum := by
    rw [← hlen]
    simp [off]
  have hrun : ∀ k < runs.length, ∀ i < len k,
      ((tiles.zipIdx.map fun p => List.replicate p.1 p.2).flatten).getD (off k + i) 0 = k := by
    intro k hk i hi
    have hparts : (tiles.zipIdx.map fun p => List.replicate p.1 p.2).map List.length = tiles := by
      refine List.ext_getElem? fun k => ?_
      simp only [List.getElem?_map, List.getElem?_zipIdx, Option.map_map]
      cases tiles[k]? with
      | none => rfl
      | some n => simp
    have hpart : (tiles.zipIdx.map fun p => List.replicate p.1 p.2)[k]? = some (List.replicate (len k) k) := by
      have hkt : k < tiles.length := by omega
      simp [len, hkt]
    have hget := flatten_getElem? (j := i) hpart (by simpa using hi)
    rw [hparts] at hget
    rw [List.getD_eq_getElem?_getD, hget]
    simp [hi]
  rw [hall, ← htotal, ← List.map_id ((List.range runs.length).flatMap _)]
  refine map_range_offset hoff rfl (fun k hk i hi => ?_) fun k hk => ?_
  · have hget : runs[k]? = some runs[k] := List.getElem?_eq_getElem hk
    have hcount : i < cdiv (runs[k].2 - runs[k].1) blockQ := by
      simpa [len, htiles', hk] using hi
    have hfirst : ((List.range tiles.length).map fun run => (tiles.take run).sum).getD k 0 = off k := by
      simp [off, hlen, hk]
    have hpiece : runs.getD k (0, 0) = runs[k] := by simp [hk]
    have hstart : (runs.map Prod.fst).getD k 0 = runs[k].1 := by simp [hk]
    have hlength : (runs.map fun run => run.2 - run.1).getD k 0 = runs[k].2 - runs[k].1 := by simp [hk]
    rw [hpiece, hostPieces_getElem? hcount, hrun k hk i hi, hfirst, hstart, hlength, Nat.add_sub_cancel_left, Nat.min_comm,
      Nat.sub_sub]
    rfl
  · simp [hostPieces_length, len, htiles', hk]

/-! ## The tiles -/

theorem hostTileBounds_eq (request : Nat → Int) (totalQ groups : Nat) :
    hostTileBounds request totalQ groups blockQ = (allRuns request totalQ groups).flatMap (hostPieces blockQ) := by
  unfold hostTileBounds allRuns
  rw [List.flatMap_assoc]

theorem tileBounds_eq (request : Nat → Int) (totalQ groups : Nat) :
    hostTileBounds request totalQ groups blockQ = deviceTileBounds request totalQ blockQ (groups * totalQ) := by
  obtain ⟨hchain, hstarts, -⟩ := allRuns_spec request totalQ groups
  rw [hostTileBounds_eq, deviceTileBounds_eq hchain hstarts]

/-- The number of rows does not show in the tiles. -/
theorem buildTileBounds_eq (request : Nat → Int) (totalQ groups : Nat) :
    buildTileBounds request totalQ groups blockQ (groups * totalQ) = hostTileBounds request totalQ groups blockQ := by
  unfold buildTileBounds
  rw [← tileBounds_eq, ite_self]

/-- The tiles cover the rows in order. -/
theorem hostTileBounds_rows (hb : 0 < blockQ) (request : Nat → Int) (totalQ groups : Nat) :
    (hostTileBounds request totalQ groups blockQ).flatMap (fun t => List.range' t.start t.count) =
      List.range (groups * totalQ) := by
  obtain ⟨hchain, -, -⟩ := allRuns_spec request totalQ groups
  rw [hostTileBounds_eq, List.flatMap_assoc, List.flatMap_congr fun run _ => hostPieces_rows hb run, hchain.flatMap.1,
    Nat.sub_zero, List.range_eq_range']

/-- A tile has rows, at most `block_q`, all of one request and one group. -/
structure TileOk (request : Nat → Int) (totalQ groups blockQ : Nat) (t : TileBound) : Prop where
  count_pos : 0 < t.count
  count_le : t.count ≤ blockQ
  request : ∀ row, t.start ≤ row → row < t.start + t.count → request row = request t.start
  group : ∃ group < groups, group * totalQ ≤ t.start ∧ t.start + t.count ≤ group * totalQ + totalQ

theorem hostTileBounds_ok (hb : 0 < blockQ) {request : Nat → Int} {totalQ groups : Nat} {t : TileBound}
    (ht : t ∈ hostTileBounds request totalQ groups blockQ) : TileOk request totalQ groups blockQ t := by
  rw [hostTileBounds_eq] at ht
  obtain ⟨run, hrun, ht⟩ := List.mem_flatMap.mp ht
  obtain ⟨hpos, hle, hlo, hhi⟩ := hostPieces_inside hb ht
  obtain ⟨group, hgroup, h⟩ := (allRuns_spec request totalQ groups).2.2 run hrun
  have hstart := h.start
  have hstop := h.stop
  refine ⟨hpos, hle, fun row hrow hlt => ?_, group, hgroup, by omega, by omega⟩
  rw [h.request row (by omega) (by omega), h.request t.start hlo (by omega)]

end

/-! ## The tile of a row -/

section
variable {bounds : List TileBound} {rows : Nat}
  (hrows : (bounds.flatMap fun t => List.range' t.start t.count) = List.range rows)
include hrows

theorem tile_start {k : Nat} {t : TileBound} (ht : bounds[k]? = some t) (hcount : 0 < t.count) :
    t.start = ((bounds.map TileBound.count).take k).sum := by
  have hlengths : (bounds.map fun t => List.range' t.start t.count).map List.length = bounds.map TileBound.count := by
    simp [Function.comp_def]
  have hpart : (bounds.map fun t => List.range' t.start t.count)[k]? = some (List.range' t.start t.count) := by
    rw [List.getElem?_map, ht, Option.map_some]
  have hget := flatten_getElem? (j := 0) hpart (by simpa using hcount)
  rw [hlengths, ← List.flatMap_def, hrows, Nat.add_zero, List.getElem?_range' hcount] at hget
  obtain ⟨_, hget⟩ := List.getElem?_eq_some_iff.mp hget
  rw [List.getElem_range] at hget
  omega

theorem tileOfRow_eq {k q : Nat} {t : TileBound} (ht : bounds[k]? = some t) (hq : q < t.count) :
    tileOfRow bounds (t.start + q) = k ∧ queryOfRow bounds (t.start + q) = q := by
  have htile : tileOfRow bounds (t.start + q) = k := by
    have hlengths : (bounds.zipIdx.map fun p => List.replicate p.1.count p.2).map List.length =
        bounds.map TileBound.count := by
      refine List.ext_getElem? fun i => ?_
      simp only [List.getElem?_map, List.getElem?_zipIdx, Option.map_map]
      cases bounds[i]? with
      | none => rfl
      | some t => simp
    have hpart : (bounds.zipIdx.map fun p => List.replicate p.1.count p.2)[k]? = some (List.replicate t.count k) := by
      simp [ht]
    have hget := flatten_getElem? (j := q) hpart (by simpa using hq)
    rw [hlengths, ← tile_start hrows ht (by omega)] at hget
    rw [tileOfRow, List.getD_eq_getElem?_getD, hget]
    simp [hq]
  refine ⟨htile, ?_⟩
  rw [queryOfRow, htile, List.getD_eq_getElem?_getD, ht, Option.getD_some, Nat.add_sub_cancel_left]

theorem tile_row_lt {k q : Nat} {t : TileBound} (ht : bounds[k]? = some t) (hq : q < t.count) : t.start + q < rows := by
  have hmem : t.start + q ∈ bounds.flatMap fun t : TileBound => List.range' t.start t.count :=
    List.mem_flatMap.mpr ⟨t, List.mem_of_getElem? ht, List.mem_range'_1.mpr ⟨Nat.le_add_right _ _, by omega⟩⟩
  rw [hrows] at hmem
  exact List.mem_range.mp hmem

theorem exists_tile {row : Nat} (hrow : row < rows) : ∃ (k : Nat) (t : TileBound) (q : Nat), bounds[k]? = some t ∧ q < t.count ∧ row = t.start + q := by
  have hmem : row ∈ bounds.flatMap fun t : TileBound => List.range' t.start t.count := by
    rw [hrows]
    exact List.mem_range.mpr hrow
  obtain ⟨t, ht, hr⟩ := List.mem_flatMap.mp hmem
  obtain ⟨hlo, hhi⟩ := List.mem_range'_1.mp hr
  obtain ⟨k, hk⟩ := List.getElem?_of_mem ht
  exact ⟨k, t, row - t.start, hk, by omega, by omega⟩

theorem tileOfRow_mono {row row' : Nat} (hle : row ≤ row') (hrow' : row' < rows) :
    tileOfRow bounds row ≤ tileOfRow bounds row' := by
  obtain ⟨k, t, q, hk, hq, rfl⟩ := exists_tile hrows (hle.trans_lt hrow')
  obtain ⟨k', t', q', hk', hq', rfl⟩ := exists_tile hrows hrow'
  rw [(tileOfRow_eq hrows hk hq).1, (tileOfRow_eq hrows hk' hq').1]
  by_contra hlt
  have hstart := tile_start hrows hk (by omega)
  have hstart' := tile_start hrows hk' (by omega)
  obtain ⟨d, rfl⟩ : ∃ d, k = k' + 1 + d := ⟨k - (k' + 1), by omega⟩
  rw [List.take_add, List.sum_append, List.take_add_one, List.sum_append, List.getElem?_map, hk'] at hstart
  simp only [Option.map_some, Option.toList_some, List.sum_singleton] at hstart
  omega

/-- Two rows in the same place of the same tile are the same row. -/
theorem row_of_tile {row k q : Nat} {t : TileBound} (hrow : row < rows) (ht : bounds[k]? = some t)
    (htile : tileOfRow bounds row = k) : t.start ≤ row ∧ row < t.start + t.count ∧ (queryOfRow bounds row = q → row = t.start + q) := by
  obtain ⟨k', t', q', hk', hq', rfl⟩ := exists_tile hrows hrow
  obtain ⟨htile', hquery⟩ := tileOfRow_eq hrows hk' hq'
  obtain rfl : k' = k := htile'.symm.trans htile
  obtain rfl : t' = t := Option.some.inj (hk'.symm.trans ht)
  refine ⟨Nat.le_add_right _ _, by omega, fun h => ?_⟩
  rw [← h, hquery]

end

end VllmHcu.Sparse

/-!
## Words of a tile

The entries come sorted by tile, so the entries of a slab are one slice of them and
every staged bit of a tile is set by an entry of that tile. A word is the sum of the
weights of its staged bits.
-/

namespace VllmHcu.Sparse

/-! ## Words -/

theorem sum_bits (f : Nat → Bool) (n : Nat) :
    ((List.range n).map fun k => if f k then 2 ^ k else 0).sum < 2 ^ n ∧
      ∀ k < n, ((List.range n).map fun k => if f k then 2 ^ k else 0).sum.testBit k = f k := by
  induction n with
  | zero => simp
  | succ n ih =>
    obtain ⟨hlt, hbit⟩ := ih
    rw [List.range_succ, List.map_append, List.sum_append, List.map_singleton, List.sum_singleton, Nat.pow_succ]
    by_cases hf : f n = true
    · rw [if_pos hf, Nat.add_comm]
      refine ⟨by omega, fun k hk => ?_⟩
      rcases Nat.lt_succ_iff_lt_or_eq.mp hk with hk | rfl
      · rw [Nat.testBit_two_pow_add_gt hk, hbit k hk]
      · rw [Nat.testBit_two_pow_add_eq, Nat.testBit_lt_two_pow hlt, hf]
        rfl
    · rw [if_neg hf, Nat.add_zero]
      refine ⟨by omega, fun k hk => ?_⟩
      rcases Nat.lt_succ_iff_lt_or_eq.mp hk with hk | rfl
      · exact hbit k hk
      · rw [Nat.testBit_lt_two_pow hlt, Bool.eq_false_iff.mpr hf]

/-- The low 32 bits read as a signed word. -/
theorem signed_word (a : Nat) : BitVec.ofInt 32 ((a : Int) - if 2 ^ 31 ≤ a then 2 ^ 32 else 0) = BitVec.ofNat 32 a := by
  apply BitVec.eq_of_toInt_eq
  rw [BitVec.toInt_ofInt, BitVec.toInt_ofNat']
  by_cases h : 2 ^ 31 ≤ a
  · rw [if_pos h]
    exact Int.sub_bmod_right ..
  · rw [if_neg h, Int.sub_zero]

theorem selected_bit (word : BitVec 32) {k : Nat} (hk : k < 32) : (word.sshiftRight k &&& 1#32 == 1#32) = word.getLsbD k := by
  have hbit : (word.sshiftRight k).getLsbD 0 = word.getLsbD k := by
    rw [BitVec.getLsbD_sshiftRight]
    simp [hk]
  rw [BitVec.and_one_eq_setWidth_ofBool_getLsbD, hbit]
  cases word.getLsbD k <;> rfl

/-! ## The masks -/

section
variable {entries : List TileEntry} {numTiles union blockQ budget : Nat}

theorem slabSize_pos : 0 < slabSize numTiles union blockQ budget := by
  unfold slabSize
  omega

theorem slabWord_bit (h : entries.Pairwise fun a b => a.tile ≤ b.tile) (tile query slot : Nat) :
    (slabWord entries numTiles union blockQ budget (tile / slabSize numTiles union blockQ budget) tile (query / 32)
        slot).getLsbD (query % 32) =
      entries.any fun e => e.tile == tile && e.query == query && e.slot == slot := by
  have hpos : 0 < slabSize numTiles union blockQ budget := slabSize_pos
  have hlow := Nat.div_mul_le_self tile (slabSize numTiles union blockQ budget)
  have hhigh := (Nat.div_lt_iff_lt_mul hpos).mp (Nat.lt_succ_self (tile / slabSize numTiles union blockQ budget))
  have hmod : query % 32 < 32 := Nat.mod_lt _ (by decide)
  unfold slabWord slabBound
  dsimp only
  rw [signed_word, BitVec.getLsbD_ofNat, (sum_bits _ 32).2 _ hmod, decide_eq_true hmod, Bool.true_and, Nat.div_add_mod',
    slice_filter h (Nat.mul_le_mul_right _ (Nat.le_succ _)), List.any_filter, List.any_filter]
  congr 1
  funext e
  by_cases he : e.tile = tile
  · rw [he, decide_eq_false (Nat.not_lt.mpr hlow), decide_eq_true hhigh, decide_eq_true rfl, beq_self_eq_true]
    rfl
  · have hne : ¬ (e.tile : Int) - (tile / slabSize numTiles union blockQ budget * slabSize numTiles union blockQ budget : Nat) =
        (tile : Int) - (tile / slabSize numTiles union blockQ budget * slabSize numTiles union blockQ budget : Nat) := by omega
    rw [decide_eq_false hne, beq_eq_false_iff_ne.mpr he]
    simp

theorem foldl_slabs {slab : Nat} (hslab : 0 < slab) (w : Nat → Nat → Nat → Nat → BitVec 32) (mem : Nat → Nat → Nat → BitVec 32)
    (n tile word slot : Nat) :
    ((List.range n).map fun i => (0 + i * slab, i)).foldl (fun out p => fun tile word slot =>
        if p.1 ≤ tile ∧ tile < min (p.1 + slab) numTiles then w p.2 tile word slot else out tile word slot) mem tile word slot =
      if tile < n * slab ∧ tile < numTiles then w (tile / slab) tile word slot else mem tile word slot := by
  induction n with
  | zero => simp
  | succ n ih =>
    rw [List.range_succ, List.map_append, List.foldl_append, List.map_singleton, List.foldl_cons, List.foldl_nil, Nat.zero_add]
    have hsucc := Nat.succ_mul n slab
    by_cases hin : n * slab ≤ tile ∧ tile < min (n * slab + slab) numTiles
    · have hdiv : tile / slab = n := Nat.div_eq_of_lt_le hin.1 (by rw [hsucc]; omega)
      rw [if_pos hin, if_pos (by rw [hsucc]; omega), hdiv]
    · rw [if_neg hin, ih]
      by_cases hbefore : tile < n * slab ∧ tile < numTiles
      · rw [if_pos hbefore, if_pos (by rw [hsucc]; omega)]
      · rw [if_neg hbefore, if_neg (by rw [hsucc]; omega)]

theorem sorted_check (h : entries.Pairwise fun a b => a.tile ≤ b.tile) :
    ((entries.zip entries.tail).all fun p => decide (p.1.tile ≤ p.2.tile)) = true := by
  induction h with
  | nil => rfl
  | @cons a l ha _ ih =>
    cases l with
    | nil => rfl
    | cons b l =>
      change (decide (a.tile ≤ b.tile) && ((b :: l).zip l).all _) = true
      rw [decide_eq_true (ha b (List.mem_cons_self ..)), Bool.true_and]
      exact ih

/-- A bit is set exactly when an entry names its tile, its query and its slot. -/
theorem buildTileMasks_bit (h : entries.Pairwise fun a b => a.tile ≤ b.tile) (mem : Nat → Nat → Nat → BitVec 32) :
    ∃ masks, buildTileMasks entries numTiles union blockQ budget mem = .ok masks ∧
      ∀ tile < numTiles, ∀ query slot, (masks tile (query / 32) slot).getLsbD (query % 32) =
        entries.any fun e => e.tile == tile && e.query == query && e.slot == slot := by
  unfold buildTileMasks
  by_cases hempty : numTiles = 0 ∨ entries = []
  · rw [if_pos hempty]
    refine ⟨_, rfl, fun tile htile query slot => ?_⟩
    rcases hempty with rfl | rfl
    · exact absurd htile (Nat.not_lt_zero _)
    · simp
  · have hpos : 0 < slabSize numTiles union blockQ budget := slabSize_pos
    have hslabs : (strided 0 numTiles (slabSize numTiles union blockQ budget)).zipIdx =
        (List.range (cdiv numTiles (slabSize numTiles union blockQ budget))).map fun i =>
          (0 + i * slabSize numTiles union blockQ budget, i) := by
      refine List.ext_getElem? fun i => ?_
      by_cases hi : i < cdiv numTiles (slabSize numTiles union blockQ budget)
      · simp [strided, hi]
      · simp [strided, hi]
    rw [if_neg hempty, if_pos (sorted_check h)]
    dsimp only
    rw [hslabs]
    refine ⟨_, rfl, fun tile htile query slot => ?_⟩
    rw [foldl_slabs hpos, if_pos ⟨htile.trans_le (le_cdiv_mul _ hpos), htile⟩]
    exact slabWord_bit h tile query slot

end

end VllmHcu.Sparse
