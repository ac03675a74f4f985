import VllmHcu.Dcp.TopkMerge
import VllmHcu.Lib.RowMajor

/-!
# The merged selection is the global top-k

A selection row lists positions and pads with `-1`. Selecting by score from a
row of candidates gives the best of its positions, so each rank's row is best on
the rank's shard and the merged row is best on the union.
-/

namespace VllmHcu.Dcp

section
variable {α : Type} [LinearOrder α]

/-- The positions a row lists. -/
def positions (row : List Int) : List Nat := (row.filter (0 ≤ ·)).map Int.toNat

/-- `row` lists a best selection of `topkTokens` among the positions in `U`, padded with `-1`. -/
structure Selects (f : Nat → α) (topkTokens : Nat) (U : Finset Nat) (row : List Int) : Prop where
  length : row.length = topkTokens
  padding : ∀ e ∈ row, e = -1 ∨ 0 ≤ e
  nodup : (positions row).Nodup
  best : Best f topkTokens U (positions row).toFinset

theorem Selects.congr {f g : Nat → α} {topkTokens : Nat} {U : Finset Nat} {row : List Int}
    (h : Selects f topkTokens U row) (he : ∀ i ∈ U, f i = g i) : Selects g topkTokens U row := by
  refine ⟨h.length, h.padding, h.nodup, h.best.subset, h.best.card, fun x hx y hy hyS => ?_⟩
  rw [← he x (h.best.subset hx), ← he y hy]
  exact h.best.largest x hx y hy hyS

theorem positions_map {ι : Type} (g : ι → Int) : ∀ l : List ι,
    positions (l.map g) = (l.filter fun i => 0 ≤ g i).map fun i => (g i).toNat
  | [] => rfl
  | i :: l => by
    have ih := positions_map g l
    unfold positions at *
    by_cases hi : 0 ≤ g i
    · simp [hi, ih]
    · simp [hi, ih]

theorem positions_append (a b : List Int) : positions (a ++ b) = positions a ++ positions b := by
  simp [positions]

theorem mem_positions {row : List Int} {p : Nat} : p ∈ positions row ↔ (p : Int) ∈ row := by
  simp only [positions, List.mem_map, List.mem_filter, decide_eq_true_eq]
  constructor
  · rintro ⟨e, ⟨he, hpos⟩, rfl⟩
    rwa [Int.toNat_of_nonneg hpos]
  · intro h
    exact ⟨p, ⟨h, by omega⟩, by simp⟩

theorem range_getD (row : List Int) : (List.range row.length).map (fun c => row.getD c (-1)) = row := by
  apply List.ext_getElem
  · simp
  · intro i _ hi
    simp [List.getD_eq_getElem?_getD, List.getElem?_eq_getElem hi]

variable (topk : TorchTopk α)

/-- The score that a candidate position enters the selection with. -/
def candidateScore (f : Nat → α) (e : Int) : WithBot α := if 0 ≤ e then (f e.toNat : WithBot α) else ⊥

omit [LinearOrder α] in
theorem candidateScore_ne_bot {f : Nat → α} {e : Int} : candidateScore f e ≠ ⊥ ↔ 0 ≤ e := by
  unfold candidateScore
  split <;> simp_all

theorem selects_candidates {f : Nat → α} {topkTokens : Nat} {row : List Int} (hlen : topkTokens ≤ row.length)
    (hpad : ∀ e ∈ row, e = -1 ∨ 0 ≤ e) (hn : (positions row).Nodup) :
    Selects f topkTokens (positions row).toFinset
      ((topk.indices (row.map (candidateScore f)) topkTokens).map fun c => row.getD c (-1)) := by
  have hlen' : topkTokens ≤ (row.map (candidateScore f)).length := by simpa using hlen
  have hnd := topk.nodup _ _ hlen'
  have hbest := topk.best _ _ hlen'
  rw [List.length_map] at hbest
  set sel := topk.indices (row.map (candidateScore f)) topkTokens with hsel
  have hval : ∀ c < row.length, (row.map (candidateScore f)).getD c ⊥ = candidateScore f (row.getD c (-1)) := by
    intro c hc
    simp [List.getD_eq_getElem?_getD, hc]
  have hlt : ∀ c ∈ sel, c < row.length := fun c hc => by
    simpa using hbest.subset (List.mem_toFinset.mpr hc)
  have hrow : positions row = ((List.range row.length).filter fun c => 0 ≤ row.getD c (-1)).map
      fun c => (row.getD c (-1)).toNat := by
    rw [← positions_map, range_getD]
  have hinj : Set.InjOn (fun c => (row.getD c (-1)).toNat)
      (((Finset.range row.length).filter fun c => 0 ≤ row.getD c (-1) : Finset Nat) : Set Nat) := by
    intro c hc d hd he
    rw [hrow] at hn
    simp only [Finset.coe_filter, Finset.mem_range, Set.mem_ofPred_eq] at hc hd
    exact List.inj_on_of_nodup_map hn (by simpa using hc) (by simpa using hd) he
  have hfilter : ∀ A : Finset Nat, (∀ c ∈ A, c < row.length) →
      A.filter (fun c => (row.map (candidateScore f)).getD c ⊥ ≠ ⊥) = A.filter fun c => 0 ≤ row.getD c (-1) := by
    intro A hA
    refine Finset.filter_congr fun c hc => ?_
    rw [hval c (hA c hc), candidateScore_ne_bot]
  have hun := hbest.unmasked
  rw [hfilter _ fun c hc => Finset.mem_range.mp hc, hfilter _ fun c hc => hlt c (List.mem_toFinset.mp hc)] at hun
  have hcoe : ∀ c ∈ (Finset.range row.length).filter fun c => 0 ≤ row.getD c (-1),
      (row.map (candidateScore f)).getD c ⊥ = (f (row.getD c (-1)).toNat : WithBot α) := by
    intro c hc
    obtain ⟨hc, hpos⟩ := Finset.mem_filter.mp hc
    rw [hval c (Finset.mem_range.mp hc), candidateScore, if_pos hpos]
  have himage := hun.image (f := f) hinj fun c hc d hd hle => by
    rw [hcoe c hc, hcoe d hd] at hle
    exact WithBot.coe_le_coe.mp hle
  refine ⟨?_, ?_, ?_, ?_⟩
  · have hcard := hbest.card
    rw [List.toFinset_card_of_nodup hnd, Finset.card_range] at hcard
    rw [List.length_map]
    omega
  · intro e he
    obtain ⟨c, hc, rfl⟩ := List.mem_map.mp he
    have hcl := hlt c hc
    refine hpad _ ?_
    rw [List.getD_eq_getElem?_getD, List.getElem?_eq_getElem hcl]
    exact List.getElem_mem hcl
  · rw [positions_map]
    refine List.Nodup.map_on ?_ (hnd.filter _)
    intro c hc d hd he
    simp only [List.mem_filter, decide_eq_true_eq] at hc hd
    exact hinj (by simpa using ⟨hlt c hc.1, hc.2⟩) (by simpa using ⟨hlt d hd.1, hd.2⟩) he
  · rw [positions_map, hrow]
    convert himage using 1
    · ext p
      simp
    · ext p
      simp

/-! ## The selection of one rank -/

theorem toInt32_of_lt {z : Int} (hlo : -1 ≤ z) (hhi : z < 2 ^ 31) : toInt32 z = z := by
  unfold toInt32
  exact Int.bmod_eq_of_le (by omega) (by omega)

section
variable {N : Nat} {P : Nat → Prop} [DecidablePred P] {φ : Nat → Nat}

theorem positions_guarded : positions ((List.range N).map fun c => if P c then (φ c : Int) else -1) =
    ((List.range N).filter P).map φ := by
  have hpos : ∀ c, (0 ≤ if P c then (φ c : Int) else -1) ↔ P c := by
    intro c
    split
    · rename_i h
      exact iff_of_true (by omega) h
    · rename_i h
      exact iff_of_false (by omega) h
  rw [positions_map]
  simp only [hpos]
  refine List.map_congr_left fun c hc => ?_
  simp only [List.mem_filter, decide_eq_true_eq] at hc
  rw [if_pos hc.2, Int.toNat_natCast]

theorem positions_guarded_nodup (hinj : ∀ c d, P c → P d → φ c = φ d → c = d) :
    (positions ((List.range N).map fun c => if P c then (φ c : Int) else -1)).Nodup := by
  rw [positions_guarded]
  refine List.Nodup.map_on ?_ (List.nodup_range.filter _)
  intro c hc d hd he
  simp only [List.mem_filter, decide_eq_true_eq] at hc hd
  exact hinj c d hc.2 hd.2 he

theorem guarded_padding : ∀ e ∈ (List.range N).map fun c => if P c then (φ c : Int) else -1, e = -1 ∨ 0 ≤ e := by
  intro e he
  obtain ⟨c, -, rfl⟩ := List.mem_map.mp he
  split
  · exact .inr (Int.natCast_nonneg _)
  · exact .inl rfl

end

/-- A row no longer than `topkTokens` is listed whole, in sequence order. -/
theorem selects_all {f : Nat → α} {topkTokens m : Nat} (h : m ≤ topkTokens) : Selects f topkTokens (Finset.range m)
    ((List.range topkTokens).map fun i => if i < m then (i : Int) else -1) := by
  have hset : (positions ((List.range topkTokens).map fun i => if i < m then (i : Int) else -1)).toFinset =
      Finset.range m := by
    ext i
    rw [positions_guarded]
    simp only [List.map_id', List.mem_toFinset, List.mem_filter, List.mem_range, decide_eq_true_eq, Finset.mem_range]
    omega
  refine ⟨by simp, guarded_padding, positions_guarded_nodup fun c d _ _ he => he, ?_⟩
  rw [hset]
  exact ⟨subset_rfl, by simp [h], fun x hx y hy hyx => absurd hy hyx⟩

/-- The local positions of the columns, `-1` outside the row. -/
def columns (cols s m : Nat) : List Int :=
  (List.range cols).map fun c => if s ≤ c ∧ c < s + m then ((c - s : Nat) : Int) else -1

theorem positions_columns {cols s m : Nat} (h : s + m ≤ cols) :
    (positions (columns cols s m)).toFinset = Finset.range m := by
  ext i
  rw [columns, positions_guarded]
  simp only [List.mem_toFinset, List.mem_map, List.mem_filter, List.mem_range, decide_eq_true_eq, Finset.mem_range]
  constructor
  · rintro ⟨c, hc, rfl⟩
    omega
  · intro hi
    exact ⟨s + i, by omega, by omega⟩

theorem columns_getD {cols s m c : Nat} (hc : c < cols) :
    (columns cols s m).getD c (-1) = if s ≤ c ∧ c < s + m then ((c - s : Nat) : Int) else -1 := by
  simp [columns, List.getD_eq_getElem?_getD, hc]

omit [LinearOrder α] in
/-- The masked scores of a row are those of its columns as candidates. -/
theorem masked_eq {cols s m : Nat} {row : Nat → α} : ((List.range cols).map fun c : Nat =>
      if (s : Int) ≤ (c : Int) ∧ (c : Int) < (s + m : Nat) then (row c : WithBot α) else ⊥) =
    (columns cols s m).map (candidateScore fun i => row (s + i)) := by
  rw [columns, List.map_map]
  refine List.map_congr_left fun c hc => ?_
  simp only [Function.comp_apply, candidateScore, Int.ofNat_le, Int.ofNat_lt]
  by_cases hin : s ≤ c ∧ c < s + m
  · rw [if_pos hin, if_pos hin, if_pos (Int.natCast_nonneg _), Int.toNat_natCast, Nat.add_sub_cancel' hin.1]
  · rw [if_neg hin, if_neg hin, if_neg (by omega)]

theorem topkRow_selects {topkTokens cols s m : Nat} {row : Nat → α} (h : s + m ≤ cols) (hm : m ≤ 2 ^ 31) :
    Selects (fun i => row (s + i)) topkTokens (Finset.range m) (topkRow topk topkTokens cols row s (s + m : Nat)) := by
  have hlen : max (((s + m : Nat) : Int) - s) 0 = (m : Int) := by omega
  unfold topkRow
  rw [hlen]
  by_cases hk : m ≤ topkTokens
  · rw [if_pos (by omega)]
    simp only [Int.ofNat_lt]
    exact selects_all hk
  · have hmin : min topkTokens cols = topkTokens := by omega
    have hcols : topkTokens ≤ (columns cols s m).length := by
      simp only [columns, List.length_map, List.length_range]
      omega
    have hsel := selects_candidates topk (f := fun i => row (s + i)) hcols guarded_padding
      (positions_guarded_nodup fun c d hc hd he => by omega)
    rw [positions_columns h] at hsel
    rw [if_neg (by omega), hmin, masked_eq, Nat.sub_self, List.replicate_zero, List.append_nil]
    refine Eq.mp (congrArg _ (List.map_congr_left fun c hc => ?_)) hsel
    have hc : c < cols := by
      have hsub := (topk.best _ _ (by simpa using hcols)).subset (List.mem_toFinset.mpr hc)
      simpa [columns] using hsub
    have hval : ((columns cols s m).map (candidateScore fun i => row (s + i))).getD c ⊥ =
        candidateScore (fun i => row (s + i)) ((columns cols s m).getD c (-1)) := by
      simp [List.getD_eq_getElem?_getD, columns, hc]
    rw [hval, columns_getD hc]
    by_cases hin : s ≤ c ∧ c < s + m
    · rw [if_pos hin, if_neg (candidateScore_ne_bot.mpr (Int.natCast_nonneg _)), toInt32_of_lt (by omega) (by omega)]
      omega
    · rw [if_neg hin, if_pos]
      by_contra hne
      have := candidateScore_ne_bot.mp hne
      omega

/-! ## Who holds which position -/

section
variable (dcpWorldSize cpInterleave : Nat)

/-- The positions below `n` that `rank` holds, in sequence order. -/
def held (n rank : Nat) : List Nat :=
  (List.range n).filter fun p => p / cpInterleave % dcpWorldSize = rank

/-- The sequence position of local position `i` of `rank`. -/
def globalId (rank i : Nat) : Nat :=
  i / cpInterleave * (dcpWorldSize * cpInterleave) + rank * cpInterleave + i % cpInterleave

end

section
variable {W il r : Nat}

theorem globalId_eq (i : Nat) : globalId W il r i = (i / il * W + r) * il + i % il := by
  unfold globalId
  ring

variable (hil : 0 < il) (hr : r < W)
include hil

theorem exists_globalId {p : Nat} (hp : p / il % W = r) : ∃ i, globalId W il r i = p := by
  have hmod := Nat.mod_lt p hil
  refine ⟨p / il / W * il + p % il, ?_⟩
  rw [globalId_eq, block_div hmod, block_mod hmod, ← hp, Nat.div_add_mod', Nat.div_add_mod']

include hr

theorem globalId_owner (i : Nat) : globalId W il r i / il % W = r := by
  rw [globalId_eq, block_div (Nat.mod_lt i hil), block_mod hr]

theorem globalId_strictMono : StrictMono (globalId W il r) := by
  intro i j hij
  rw [globalId_eq, globalId_eq]
  have hi := Nat.div_add_mod' i il
  have hj := Nat.div_add_mod' j il
  have hmi := Nat.mod_lt i hil
  have hmj := Nat.mod_lt j hil
  rcases Nat.lt_or_ge (i / il) (j / il) with hlt | hge
  · have hblock : i / il * W + r + 1 ≤ j / il * W + r := by
      have := Nat.mul_le_mul_right W hlt
      rw [Nat.succ_mul] at this
      omega
    have := Nat.mul_le_mul_right il hblock
    rw [Nat.add_mul (i / il * W + r) 1 il, Nat.one_mul] at this
    omega
  · have hle : i / il ≤ j / il := Nat.div_le_div_right hij.le
    have heq : i / il = j / il := by omega
    rw [heq] at hi ⊢
    omega

theorem mem_held {n i : Nat} : globalId W il r i ∈ held W il n r ↔ globalId W il r i < n := by
  simp only [held, List.mem_filter, List.mem_range, decide_eq_true_eq, globalId_owner hil hr, and_true]

/-- Dealing by interleave: local position `i` of a rank is its `i`-th position of the sequence. -/
theorem held_eq (n : Nat) : held W il n r = (List.range (held W il n r).length).map (globalId W il r) := by
  induction n with
  | zero => rfl
  | succ n ih =>
    by_cases hn : n / il % W = r
    · have hsucc : held W il (n + 1) r = held W il n r ++ [n] := by
        simp [held, List.range_succ, List.filter_append, hn]
      obtain ⟨j, hj⟩ := exists_globalId hil hn
      have hmem : ∀ i, globalId W il r i < n ↔ i < (held W il n r).length := by
        intro i
        rw [← mem_held hil hr, ih]
        simp [(globalId_strictMono hil hr).injective.eq_iff]
      have hlen : j = (held W il n r).length := by
        have hself := hmem j
        rw [hj] at hself
        by_contra hne
        have hlt : (held W il n r).length < j := by omega
        have := (hmem _).mp ((globalId_strictMono hil hr hlt).trans_eq hj)
        omega
      rw [hsucc, List.length_append, List.length_singleton, List.range_succ, List.map_append, ← ih, List.map_singleton,
        ← hlen, hj]
    · have hsucc : held W il (n + 1) r = held W il n r := by
        simp [held, List.range_succ, List.filter_append, hn]
      rw [hsucc]
      exact ih

theorem held_toFinset (n : Nat) :
    (held W il n r).toFinset = (Finset.range (held W il n r).length).image (globalId W il r) := by
  ext p
  conv_lhs => rw [held_eq hil hr n]
  simp

end

/-! ## The merge -/

section
variable {K W il n b : Nat} {score : Nat → α}

theorem scoreColumn_eq (rowStarts : Option (List Int)) (i : Int) :
    scoreColumn rowStarts b i = scoreColumn rowStarts b 0 + i := by
  cases rowStarts with
  | none => simp [scoreColumn]
  | some starts => simp [scoreColumn, Int.add_comm]

/-- Row `b` of `c` holds the scores of the positions of `r` from column `s` on, and a best selection of them. -/
structure Ready (K W il n b r : Nat) (score : Nat → α) (c : Candidates α) : Prop where
  start : ∃ s : Nat, scoreColumn c.rowStarts b 0 = s ∧
    s + (held W il n r).length ≤ c.logits.cols ∧
    ∀ i < (held W il n r).length, c.logits.elem b (s + i) = score (globalId W il r i)
  selects : Selects (fun i => score (globalId W il r i)) K (Finset.range (held W il n r).length)
    (c.topkIndices.getD b [])

/-- The selection of `r` by sequence position. -/
def globalRow (W il r : Nat) (row : List Int) : List Int :=
  row.map fun e => if e < 0 then -1 else (globalId W il r e.toNat : Int)

theorem positions_globalRow (r : Nat) (row : List Int) :
    positions (globalRow W il r row) = (positions row).map (globalId W il r) := by
  have hpos : ∀ e : Int, (0 ≤ if e < 0 then -1 else (globalId W il r e.toNat : Int)) ↔ 0 ≤ e := by
    intro e
    split <;> omega
  unfold globalRow
  rw [positions_map, positions, List.map_map]
  simp only [hpos]
  refine List.map_congr_left fun e he => ?_
  simp only [List.mem_filter, decide_eq_true_eq] at he
  rw [if_neg (by omega), Int.toNat_natCast, Function.comp_apply]

theorem roundFloat32_of_lt {z : Int} (hlo : -1 ≤ z) (hhi : z < 2 ^ 24) : roundFloat32 z = z := by
  unfold roundFloat32
  rw [if_pos (by omega)]

theorem Ready.lt {r : Nat} {c : Candidates α} (h : Ready K W il n b r score c) (hil : 0 < il) (hr : r < W) {e : Int}
    (he : e ∈ c.topkIndices.getD b []) (hpos : 0 ≤ e) :
    e.toNat < (held W il n r).length ∧ globalId W il r e.toNat < n := by
  have hmem : e.toNat ∈ positions (c.topkIndices.getD b []) := by
    rw [mem_positions, Int.toNat_of_nonneg hpos]
    exact he
  have hlt : e.toNat < (held W il n r).length := by
    simpa using h.selects.best.subset (List.mem_toFinset.mpr hmem)
  refine ⟨hlt, (mem_held hil hr).mp ?_⟩
  rw [held_eq hil hr n]
  exact List.mem_map_of_mem (List.mem_range.mpr hlt)

theorem Ready.packed {r : Nat} {c : Candidates α} (h : Ready K W il n b r score c) (hil : 0 < il) (hr : r < W)
    (hn : n ≤ 2 ^ 24) : packedRow W il r c b =
      (globalRow W il r (c.topkIndices.getD b [])).map fun e => (candidateScore score e, e) := by
  unfold packedRow globalRow
  rw [List.map_map]
  refine List.map_congr_left fun e he => ?_
  rcases lt_or_ge e 0 with hneg | hpos
  · simp [hneg, candidateScore, roundFloat32]
  · obtain ⟨hlt, hid⟩ := h.lt hil hr he hpos
    obtain ⟨s, hs, hcols, hval⟩ := h.start
    obtain ⟨i, rfl⟩ := Int.eq_ofNat_of_zero_le hpos
    rw [Int.toNat_natCast] at hlt hid
    have hneg : ¬ (i : Int) < 0 := by omega
    have hgid : (i : Int) / il * (W * il) + r * il + (i : Int) % il = (globalId W il r i : Int) := by
      unfold globalId
      push_cast
      rfl
    have hcolumn : scoreColumn c.rowStarts b i = ((s + i : Nat) : Int) := by
      rw [scoreColumn_eq, hs]
      omega
    have hmin : min ((s + i : Nat) : Int) ((c.logits.cols - 1 : Nat) : Int) = ((s + i : Nat) : Int) := by omega
    have hmax : max (i : Int) 0 = i := by omega
    -- the column is the local position where there are no row starts
    have hsafe : (if c.logits.cols ≠ 0 ∧ c.rowStarts = none then ((s + i : Nat) : Int) else i) = i := by
      split
      · rename_i hnone
        rw [← hcolumn, hnone.2, scoreColumn]
      · rfl
    simp only [Function.comp_apply, if_neg hneg, hmax, hcolumn, hmin, hsafe, hgid, if_neg (show c.logits.cols ≠ 0 by omega),
      Int.toNat_natCast, hval i hlt, candidateScore, if_pos (Int.natCast_nonneg _)]
    rw [toInt32_of_lt (by omega) (by omega), roundFloat32_of_lt (by omega) (by omega)]

section
variable {group : Nat → Candidates α} (hil : 0 < il) (hready : ∀ r < W, Ready K W il n b r score (group r))

/-- The candidates of all ranks, by sequence position. -/
def candidates (W il : Nat) (group : Nat → Candidates α) (b : Nat) : List Int :=
  (List.range W).flatMap fun r => globalRow W il r ((group r).topkIndices.getD b [])

omit [LinearOrder α] in
theorem positions_flatMap (f : Nat → List Int) : ∀ l : List Nat,
    positions (l.flatMap f) = l.flatMap fun r => positions (f r)
  | [] => rfl
  | r :: l => by
    rw [List.flatMap_cons, List.flatMap_cons, positions_append, positions_flatMap f l]

omit [LinearOrder α] in
theorem positions_candidates : positions (candidates W il group b) =
    (List.range W).flatMap fun r => (positions ((group r).topkIndices.getD b [])).map (globalId W il r) := by
  unfold candidates
  rw [positions_flatMap]
  simp only [positions_globalRow]

include hil hready

theorem candidates_nodup : (positions (candidates W il group b)).Nodup := by
  rw [positions_candidates, List.nodup_flatMap]
  constructor
  · intro r hr
    rw [List.mem_range] at hr
    exact (hready r hr).selects.nodup.map (globalId_strictMono hil hr).injective
  · refine List.Pairwise.imp_of_mem ?_ List.nodup_range
    intro r r' hr hr' hne
    rw [List.mem_range] at hr hr'
    change List.Disjoint _ _
    rw [List.disjoint_left]
    intro p hp hp'
    obtain ⟨i, -, rfl⟩ := List.mem_map.mp hp
    obtain ⟨j, -, he⟩ := List.mem_map.mp hp'
    have hown := globalId_owner hil hr' j
    rw [he, globalId_owner hil hr i] at hown
    exact hne hown

theorem candidates_padding : ∀ e ∈ candidates W il group b, e = -1 ∨ 0 ≤ e ∧ e < n := by
  intro e he
  obtain ⟨r, hr, he⟩ := List.mem_flatMap.mp he
  obtain ⟨i, hi, rfl⟩ := List.mem_map.mp he
  rw [List.mem_range] at hr
  split
  · exact .inl rfl
  · have := ((hready r hr).lt hil hr hi (by omega)).2
    exact .inr (by omega)

omit hil in
theorem candidates_length : (candidates W il group b).length = W * K := by
  unfold candidates
  rw [List.length_flatMap]
  have hall : (List.range W).map (fun r => (globalRow W il r ((group r).topkIndices.getD b [])).length) =
      (List.range W).map fun _ => K := by
    refine List.map_congr_left fun r hr => ?_
    rw [globalRow, List.length_map]
    exact (hready r (List.mem_range.mp hr)).selects.length
  rw [hall, List.map_const', List.sum_replicate_nat, List.length_range]

/-- Best selections of the shards leave a best selection of the sequence among the candidates. -/
theorem candidates_best (hW : 0 < W) {T : Finset Nat} (h : Best score K (positions (candidates W il group b)).toFinset T) :
    Best score K (Finset.range n) T := by
  have hrange : (Finset.range W).biUnion (fun r => (held W il n r).toFinset) = Finset.range n := by
    ext p
    simp only [held, Finset.mem_biUnion, Finset.mem_range, List.mem_toFinset, List.mem_filter, List.mem_range,
      decide_eq_true_eq]
    constructor
    · rintro ⟨r, -, hp, -⟩
      exact hp
    · intro hp
      exact ⟨p / il % W, Nat.mod_lt _ hW, hp, rfl⟩
  rw [← hrange]
  refine Best.of_parts (S := fun r => ((positions ((group r).topkIndices.getD b [])).toFinset).image (globalId W il r))
    ?_ ?_ ?_
  · intro r _ r' _ hne
    rw [Finset.disjoint_left]
    intro p hp hp'
    simp only [held, List.mem_toFinset, List.mem_filter, decide_eq_true_eq] at hp hp'
    exact hne (hp.2.symm.trans hp'.2)
  · intro r hr
    rw [Finset.mem_range] at hr
    rw [held_toFinset hil hr]
    exact (hready r hr).selects.best.image ((globalId_strictMono hil hr).injective.injOn) fun _ _ _ _ hle => hle
  · convert h using 1
    ext p
    rw [positions_candidates]
    simp

theorem gathered_eq (hn : n ≤ 2 ^ 24) : (List.range W).flatMap (fun r => packedRow W il r (group r) b) =
    (candidates W il group b).map fun e => (candidateScore score e, e) := by
  rw [candidates, List.map_flatMap]
  refine List.flatMap_congr fun r hr => ?_
  rw [List.mem_range] at hr
  exact (hready r hr).packed hil hr hn

theorem merged_selects (hW : 0 < W) (hn : n ≤ 2 ^ 24) :
    Selects score K (Finset.range n) ((topk.indices (((List.range W).flatMap fun r =>
      packedRow W il r (group r) b).map Prod.fst) K).map fun s =>
        toInt32 (((List.range W).flatMap fun r => packedRow W il r (group r) b).getD s (⊥, -1)).2) := by
  have hlen : K ≤ (candidates W il group b).length := by
    rw [candidates_length hready]
    exact Nat.le_mul_of_pos_left K hW
  have hpad := candidates_padding hil hready
  have hsel := selects_candidates topk (f := score) hlen (fun e he => (hpad e he).imp_right And.left)
    (candidates_nodup hil hready)
  have hbest := candidates_best hil hready hW hsel.best
  have hrow : (topk.indices (((List.range W).flatMap fun r => packedRow W il r (group r) b).map Prod.fst) K).map
        (fun s => toInt32 (((List.range W).flatMap fun r => packedRow W il r (group r) b).getD s (⊥, -1)).2) =
      (topk.indices ((candidates W il group b).map (candidateScore score)) K).map
        fun s => (candidates W il group b).getD s (-1) := by
    rw [gathered_eq hil hready hn, List.map_map]
    refine List.map_congr_left fun s hs => ?_
    have hs : s < (candidates W il group b).length := by
      have hsub := (topk.best ((candidates W il group b).map (candidateScore score)) K (by simpa using hlen)).subset
        (List.mem_toFinset.mpr hs)
      simpa using hsub
    have hmem : (candidates W il group b).getD s (-1) ∈ candidates W il group b := by
      rw [List.getD_eq_getElem?_getD, List.getElem?_eq_getElem hs]
      exact List.getElem_mem hs
    have hget : ((candidates W il group b).map fun e => (candidateScore score e, e)).getD s (⊥, -1) =
        (candidateScore score ((candidates W il group b).getD s (-1)), (candidates W il group b).getD s (-1)) := by
      simp [List.getD_eq_getElem?_getD, hs]
    rw [hget]
    have := hpad _ hmem
    exact toInt32_of_lt (by omega) (by omega)
  rw [hrow]
  exact ⟨hsel.length, hsel.padding, hsel.nodup, hbest⟩

end

end

/-! ## The sharded selection -/

/-- A rank's share of the scored rows: its logits buffer and the row bounds in it. -/
structure Shard (α : Type) where
  logits : Logits α
  rowStarts : Option (List Int)
  rowEnds : List Int

/-- `sh` holds, for each of `rows` sequences, the scores of the positions of `rank` in columns
`[row_start, row_end)` of its buffer. -/
structure Shard.Holds (sh : Shard α) (dcpWorldSize cpInterleave rows rank : Nat) (n : Nat → Nat)
    (score : Nat → Nat → α) : Prop where
  rows_eq : sh.logits.rows = rows
  ends_length : sh.rowEnds.length = rows
  row : ∀ b < rows, ∃ s : Nat, scoreColumn sh.rowStarts b 0 = s ∧
    sh.rowEnds.getD b 0 = ((s + (held dcpWorldSize cpInterleave (n b) rank).length : Nat) : Int) ∧
    s + (held dcpWorldSize cpInterleave (n b) rank).length ≤ sh.logits.cols ∧
    ∀ (i : Nat) (hi : i < (held dcpWorldSize cpInterleave (n b) rank).length),
      sh.logits.elem b (s + i) = score b ((held dcpWorldSize cpInterleave (n b) rank).get ⟨i, hi⟩)

section
variable {K W il R : Nat} {n : Nat → Nat} {score : Nat → Nat → α} {shard : Nat → Shard α}

theorem held_get (hil : 0 < il) {r m i : Nat} (hr : r < W) (hi : i < (held W il m r).length) :
    (held W il m r).get ⟨i, hi⟩ = globalId W il r i := by
  have hget : (held W il m r)[i]? = some (globalId W il r i) := by
    rw [held_eq hil hr m]
    simp [hi]
  rw [List.getElem?_eq_getElem hi] at hget
  exact Option.some.inj hget

theorem clamp_of_mem {lo hi z : Int} (hlo : lo ≤ z) (hhi : z ≤ hi) : clamp lo hi z = z := by
  unfold clamp
  omega

theorem topkIndicesTorch_eq {r : Nat} {sh : Shard α} (h : sh.Holds W il R r n score) :
    ∃ s : Nat → Nat, (∀ b < R, scoreColumn sh.rowStarts b 0 = s b ∧
        s b + (held W il (n b) r).length ≤ sh.logits.cols ∧
        ∀ (i : Nat) (hi : i < (held W il (n b) r).length),
          sh.logits.elem b (s b + i) = score b ((held W il (n b) r).get ⟨i, hi⟩)) ∧
      topkIndicesTorch topk sh.logits K sh.rowStarts (some sh.rowEnds) =
        .ok ((List.range R).map fun b =>
          topkRow topk K sh.logits.cols (sh.logits.elem b) (s b) (s b + (held W il (n b) r).length : Nat)) := by
  have hrow := h.row
  choose! s hs using hrow
  refine ⟨s, fun b hb => ⟨(hs b hb).1, (hs b hb).2.2⟩, ?_⟩
  simp only [topkIndicesTorch, h.rows_eq, h.ends_length, ne_eq, not_true_eq_false, if_false]
  refine congrArg Except.ok (List.map_congr_left fun b hb => ?_)
  obtain ⟨hstart, hend, hcols, -⟩ := hs b (List.mem_range.mp hb)
  rw [hend, clamp_of_mem (by omega) (by omega)]
  cases hst : sh.rowStarts with
  | none =>
    simp only [hst, scoreColumn] at hstart
    simp only [← hstart]
    congr 1
    omega
  | some starts =>
    simp only [hst, scoreColumn, Int.zero_add] at hstart
    simp only [hstart]
    rw [clamp_of_mem (by omega) (by omega), max_eq_left (by omega)]

theorem local_ready {r : Nat} {sh : Shard α} (h : sh.Holds W il R r n score) (hil : 0 < il) (hr : r < W)
    (hn : ∀ b < R, n b ≤ 2 ^ 24) :
    ∃ rows, topkIndicesTorch topk sh.logits K sh.rowStarts (some sh.rowEnds) = .ok rows ∧ rows.length = R ∧
      ∀ b < R, Ready K W il (n b) b r (score b) ⟨sh.logits, rows, sh.rowStarts⟩ := by
  obtain ⟨s, hs, hrun⟩ := topkIndicesTorch_eq topk (K := K) h
  refine ⟨_, hrun, by simp, fun b hb => ?_⟩
  obtain ⟨hstart, hcols, hval⟩ := hs b hb
  have hscore : ∀ i < (held W il (n b) r).length, sh.logits.elem b (s b + i) = score b (globalId W il r i) := by
    intro i hi
    rw [hval i hi, held_get hil hr hi]
  refine ⟨⟨s b, hstart, hcols, hscore⟩, ?_⟩
  have hlen : (held W il (n b) r).length ≤ 2 ^ 31 := by
    have hle := List.length_filter_le (fun p => p / il % W = r) (List.range (n b))
    rw [List.length_range] at hle
    have := hn b hb
    unfold held
    omega
  have hsel : Selects (fun i => sh.logits.elem b (s b + i)) K _ (topkRow topk K sh.logits.cols (sh.logits.elem b) (s b)
      (s b + (held W il (n b) r).length : Nat)) := topkRow_selects topk hcols hlen
  have hget : ((List.range R).map fun b => topkRow topk K sh.logits.cols (sh.logits.elem b) (s b)
      (s b + (held W il (n b) r).length : Nat)).getD b [] = topkRow topk K sh.logits.cols (sh.logits.elem b) (s b)
        (s b + (held W il (n b) r).length : Nat) := by
    simp [List.getD_eq_getElem?_getD, hb]
  simp only [hget]
  exact hsel.congr fun i hi => hscore i (Finset.mem_range.mp hi)

/-- Selecting on every rank and merging leaves the same rows on all ranks, the global top-k of each sequence. -/
theorem dcp_topk_global (hW : 1 < W) (hil : 0 < il) (hn : ∀ b < R, n b ≤ 2 ^ 24)
    (hold : ∀ r < W, (shard r).Holds W il R r n score) :
    ∃ selection : Nat → List (List Int),
      (∀ r < W, topkIndicesTorch topk (shard r).logits K (shard r).rowStarts (some (shard r).rowEnds) =
        .ok (selection r)) ∧
      ∃ out : List (List Int), out.length = R ∧
        (∀ rank < W, mergeDcpTopkGlobal topk K W il
          (fun r => ⟨(shard r).logits, selection r, (shard r).rowStarts⟩) rank = out) ∧
        ∀ b < R, ∃ row, out[b]? = some row ∧ row.length = K ∧ (∀ e ∈ row, e = -1 ∨ 0 ≤ e) ∧
          (positions row).Nodup ∧ (positions row).length = min K (n b) ∧ (∀ p ∈ positions row, p < n b) ∧
          ((positions row).map (score b)).Perm (kBest K ((List.range (n b)).map (score b))) := by
  have hlocal : ∀ r < W, ∃ rows, _ := fun r hr => local_ready topk (K := K) (hold r hr) hil hr hn
  choose! selection hrun hrows hready using hlocal
  let group : Nat → Candidates α := fun r => ⟨(shard r).logits, selection r, (shard r).rowStarts⟩
  let merged := fun b => (topk.indices (((List.range W).flatMap fun r => packedRow W il r (group r) b).map Prod.fst)
    K).map fun s => toInt32 (((List.range W).flatMap fun r => packedRow W il r (group r) b).getD s (⊥, -1)).2
  refine ⟨selection, hrun, (List.range R).map merged, by simp, fun rank hrank => ?_, fun b hb => ?_⟩
  · simp [mergeDcpTopkGlobal, Nat.not_le.mpr hW, hrows rank hrank, merged, group]
  · have hsel : Selects (score b) K (Finset.range (n b)) (merged b) :=
      merged_selects topk hil (fun r hr => hready r hr b hb) (by omega) (hn b hb)
    have hcard := hsel.best.card
    rw [List.toFinset_card_of_nodup hsel.nodup, Finset.card_range] at hcard
    refine ⟨merged b, by simp [hb], hsel.length, hsel.padding, hsel.nodup, hcard, fun p hp => ?_, ?_⟩
    · simpa using hsel.best.subset (List.mem_toFinset.mpr hp)
    · exact hsel.best.scores List.nodup_range (by ext; simp) hsel.nodup rfl

/-- A selection by sorting. -/
def sortTopk : TorchTopk α where
  indices values k :=
    ((List.range values.length).mergeSort fun i j => values.getD j ⊥ ≤ values.getD i ⊥).take k
  nodup values k _ :=
    ((List.mergeSort_perm _ _).nodup_iff.mpr List.nodup_range).sublist (List.take_sublist k _)
  best values k _ := by
    have hperm := List.mergeSort_perm (List.range values.length) fun i j => values.getD j ⊥ ≤ values.getD i ⊥
    have hset : (List.mergeSort (List.range values.length) fun i j => values.getD j ⊥ ≤ values.getD i ⊥).toFinset =
        Finset.range values.length := by
      ext i
      simp
    rw [← hset]
    exact best_take (hperm.nodup_iff.mpr List.nodup_range) (mergeSort_descending _)

end

end

/-- Five positions dealt to two ranks, each with its row at its own place of its buffer. -/
def twoRanks (r : Nat) : Shard Nat :=
  if r = 0 then ⟨⟨1, 4, fun _ c => [9, 4, 6, 2].getD c 0⟩, some [1], [4]⟩
  else ⟨⟨1, 2, fun _ c => [8, 1].getD c 0⟩, none, [2]⟩

theorem twoRanks_hold : ∀ r < 2, (twoRanks r).Holds 2 1 1 r (fun _ => 5) fun _ p => [4, 8, 6, 1, 2].getD p 0 := by
  intro r hr
  have hcases : r = 0 ∨ r = 1 := by omega
  rcases hcases with rfl | rfl
  · refine ⟨rfl, rfl, fun b hb => ⟨1, ?_⟩⟩
    obtain rfl : b = 0 := by omega
    decide
  · refine ⟨rfl, rfl, fun b hb => ⟨0, ?_⟩⟩
    obtain rfl : b = 0 := by omega
    decide

theorem dcp_topk_twoRanks :
    ∃ selection : Nat → List (List Int),
      (∀ r < 2, topkIndicesTorch sortTopk (twoRanks r).logits 3 (twoRanks r).rowStarts (some (twoRanks r).rowEnds) =
        .ok (selection r)) ∧
      ∃ out : List (List Int), out.length = 1 ∧
        (∀ rank < 2, mergeDcpTopkGlobal sortTopk 3 2 1
          (fun r => ⟨(twoRanks r).logits, selection r, (twoRanks r).rowStarts⟩) rank = out) ∧
        ∀ b < 1, ∃ row, out[b]? = some row ∧ row.length = 3 ∧ (∀ e ∈ row, e = -1 ∨ 0 ≤ e) ∧
          (positions row).Nodup ∧ (positions row).length = 3 ∧ (∀ p ∈ positions row, p < 5) ∧
          ((positions row).map fun p => [4, 8, 6, 1, 2].getD p 0).Perm
            (kBest 3 ((List.range 5).map fun p => [4, 8, 6, 1, 2].getD p 0)) :=
  dcp_topk_global sortTopk (by decide) (by decide) (by decide) twoRanks_hold

end VllmHcu.Dcp
