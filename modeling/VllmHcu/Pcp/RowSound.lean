import VllmHcu.Pcp.PartitionSound

/-!
# The rows of one rank

`rankRows` lists the padded rows of a rank: the token of a row and whether it is
a replicated decode row. Rows with an earlier position come first, so the decode
rows of a rank sit among the leading prefill tokens of the requests before them.
-/

namespace VllmHcu.Pcp

/-- A padded row: its global token, with `true` on a replicated decode row. -/
abbrev Row := Option (Nat × Bool)

def Row.token (c : Row) : Option Nat := c.map Prod.fst

def Row.isDecode (c : Row) : Bool := (c.map Prod.snd).getD false

def segRows (b : InputBatch) (s : BatchSegment) : List Row :=
  (segTokens s).map (fun t => some (t, isDecodeRow b s)) ++ List.replicate s.paddingTokens none

def rowsOf (b : InputBatch) (segs : List BatchSegment) : List Row := segs.flatMap (segRows b)

theorem segRows_length (b : InputBatch) (s : BatchSegment) : (segRows b s).length = s.numTokens := by
  simp [segRows, segTokens, BatchSegment.numTokens]

theorem rowsOf_length (b : InputBatch) (segs : List BatchSegment) :
    (rowsOf b segs).length = segmentTokens segs := by
  simp only [rowsOf, segmentTokens, List.length_flatMap, segRows_length]

theorem rowsOf_place (b : InputBatch) (off : Nat) (segs : List BatchSegment) :
    rowsOf b (place off segs) = rowsOf b segs :=
  flatMap_place (segRows b) (fun _ _ _ => rfl) segs off

/-! ## Rows and cells -/

theorem mem_segCells {s : BatchSegment} {j t : Nat} :
    (j, t) ∈ segCells 0 0 s ↔ ∃ k < s.numActualTokens, j = s.localStart + k ∧ t = s.globalStart + k := by
  simp only [segCells, segTokens, List.mem_iff_getElem, List.getElem_zip, List.getElem_range', Prod.mk.injEq,
    List.length_zip, List.length_range']
  constructor
  · rintro ⟨k, hk, h₁, h₂⟩
    exact ⟨k, by omega, by omega, by omega⟩
  · rintro ⟨k, hk, h₁, h₂⟩
    exact ⟨k, by omega, by omega, by omega⟩

theorem segRows_getElem?_some {b : InputBatch} {s : BatchSegment} {k t : Nat} {d : Bool} :
    (segRows b s)[k]? = some (some (t, d)) ↔
      k < s.numActualTokens ∧ t = s.globalStart + k ∧ d = isDecodeRow b s := by
  by_cases hk : k < s.numActualTokens
  · rw [segRows, List.getElem?_append_left (by simpa [segTokens] using hk)]
    simp [segTokens, hk, eq_comm]
  · rw [segRows, List.getElem?_append_right (by simpa [segTokens] using hk)]
    simp [hk, List.getElem?_replicate]

/-- The local cells of a rank, each with its decode flag. -/
def flagCells (b : InputBatch) (segs : List BatchSegment) : List (Nat × Row) :=
  segs.flatMap fun s => (segCells 0 0 s).map fun c => (c.1, some (c.2, isDecodeRow b s))

theorem mem_flagCells_local {b : InputBatch} {segs : List BatchSegment} {j t : Nat} :
    (j, t) ∈ localCells segs ↔ ∃ d, (j, some (t, d)) ∈ flagCells b segs := by
  simp only [localCells, rankCells, flagCells, List.mem_flatMap, List.mem_map]
  constructor
  · rintro ⟨s, hs, hc⟩
    exact ⟨_, s, hs, (j, t), hc, rfl⟩
  · rintro ⟨d, s, hs, ⟨j', t'⟩, hc, he⟩
    simp only [Prod.mk.injEq, Option.some.injEq] at he
    obtain ⟨rfl, rfl, _⟩ := he
    exact ⟨s, hs, hc⟩

theorem mem_flagCells_decode {b : InputBatch} {segs : List BatchSegment} {j t : Nat} :
    (j, t) ∈ decodeCells b segs ↔ (j, some (t, true)) ∈ flagCells b segs := by
  simp only [decodeCells, localCells, rankCells, flagCells, List.mem_flatMap, List.mem_map, List.mem_filter]
  constructor
  · rintro ⟨s, ⟨hs, hd⟩, hc⟩
    exact ⟨s, hs, (j, t), hc, by rw [hd]⟩
  · rintro ⟨s, hs, ⟨j', t'⟩, hc, he⟩
    simp only [Prod.mk.injEq, Option.some.injEq] at he
    obtain ⟨rfl, rfl, hd⟩ := he
    exact ⟨s, ⟨hs, hd⟩, hc⟩

/-- Local row `off + j` holds a token exactly when row `j` of the placed rows does. -/
theorem mem_flagCells_place {b : InputBatch} {t : Nat} {d : Bool} :
    ∀ {segs : List BatchSegment} {off j : Nat},
      (off + j, some (t, d)) ∈ flagCells b (place off segs) ↔ (rowsOf b segs)[j]? = some (some (t, d))
  | [], off, j => by simp [flagCells, place, rowsOf]
  | s :: segs, off, j => by
    have hsplit : (off + j, some (t, d)) ∈ flagCells b (place off (s :: segs)) ↔
        (segRows b s)[j]? = some (some (t, d)) ∨
          (off + j, some (t, d)) ∈ flagCells b (place (off + s.numTokens) segs) := by
      rw [segRows_getElem?_some, flagCells, place, List.flatMap_cons, List.mem_append]
      refine or_congr ?_ Iff.rfl
      simp only [List.mem_map, Prod.mk.injEq, Option.some.injEq]
      constructor
      · rintro ⟨⟨j', t'⟩, hc, h₁, h₂, h₃⟩
        obtain ⟨k, hk, e₁, e₂⟩ := mem_segCells.mp hc
        dsimp only at h₁ h₂ e₁ e₂
        have : j = k := by omega
        subst this
        exact ⟨hk, h₂ ▸ e₂, h₃.symm⟩
      · rintro ⟨hk, ht, hd⟩
        exact ⟨(off + j, t), mem_segCells.mpr ⟨j, hk, rfl, ht⟩, rfl, rfl, hd.symm⟩
    rw [hsplit, rowsOf, List.flatMap_cons]
    by_cases hj : j < s.numTokens
    · -- inside the first row: the later rows start after it
      rw [List.getElem?_append_left (by rwa [segRows_length])]
      have hno : (off + j, some (t, d)) ∉ flagCells b (place (off + s.numTokens) segs) := by
        intro hm
        have := (rankCells_place_sublist 0 0 segs (off + s.numTokens)).subset
          (List.mem_map.mpr ⟨_, mem_flagCells_local.mpr ⟨d, hm⟩, rfl⟩)
        simp only [List.mem_range'_1] at this
        omega
      exact or_iff_left hno
    · rw [List.getElem?_append_right (by rw [segRows_length]; omega), segRows_length]
      obtain ⟨k, rfl⟩ := Nat.exists_eq_add_of_le (Nat.le_of_not_lt hj)
      have hnone : ¬ (segRows b s)[s.numTokens + k]? = some (some (t, d)) := by
        rw [List.getElem?_eq_none (by rw [segRows_length]; omega)]
        simp
      rw [show off + (s.numTokens + k) = off + s.numTokens + k by omega, mem_flagCells_place,
        Nat.add_sub_cancel_left]
      exact or_iff_right hnone

/-! ## Padded rows of a rank -/

/-- The slot a row of rank `r` carries: its token's own, unless it is a decode row of another rank. -/
def rowSlot (slots : Nat → Int) (rank : Nat) : Row → Int
  | none => padSlotId
  | some (t, d) => if d = false ∨ rank = 0 then slots t else padSlotId

section
variable {P : Nat} (b : InputBatch) (l : BatchLayout P) (r : Fin P)

/-- The rows of rank `r`, padded to the common width. -/
def rankRows : List Row :=
  rowsOf b (l.segmentsByRank r) ++
    List.replicate (l.paddedNumTokens - segmentTokens (l.segmentsByRank r)) none

end

section
variable {m : HcuPCPManager} {b : InputBatch} {padded : Option Nat} {l : BatchLayout m.pcpSize}
  (hl : m.buildBatchLayout b padded = .ok l) (r : Fin m.pcpSize)
include hl

theorem rankRows_length : (rankRows b l r).length = l.paddedNumTokens := by
  have := (buildBatchLayout_spec hl).2.2 r
  rw [rankRows, List.length_append, rowsOf_length, List.length_replicate]
  omega

theorem rankRows_getElem?_some {j t : Nat} {d : Bool} :
    (rankRows b l r)[j]? = some (some (t, d)) ↔ (j, some (t, d)) ∈ flagCells b (l.segmentsByRank r) := by
  obtain ⟨segs, hs, _⟩ := layout_placed hl r
  have hplace : (0 + j, some (t, d)) ∈ flagCells b (place 0 segs) ↔ (rowsOf b segs)[j]? = some (some (t, d)) :=
    mem_flagCells_place
  rw [Nat.zero_add, ← hs] at hplace
  rw [hplace, rankRows, hs, rowsOf_place]
  by_cases hj : j < (rowsOf b segs).length
  · rw [List.getElem?_append_left hj]
  · rw [List.getElem?_append_right (by omega), List.getElem?_eq_none (l := rowsOf b segs) (by omega)]
    simp [List.getElem?_replicate]

theorem globalToken_eq {lb : LocalBatch} (hp : PartitionSpec m b l r lb) :
    (List.range l.paddedNumTokens).map lb.globalToken = (rankRows b l r).map Row.token := by
  apply List.ext_getElem
  · simp [rankRows_length hl]
  · intro j h₁ h₂
    simp only [List.length_map, List.length_range] at h₁
    rw [List.getElem_map, List.getElem_map, List.getElem_range]
    have hb : j < (rankRows b l r).length := by simpa using h₂
    have hj : (rankRows b l r)[j]? = some (rankRows b l r)[j] := List.getElem?_eq_getElem hb
    cases hc : (rankRows b l r)[j] with
    | none =>
      -- a row without a token: nothing was copied into it
      cases hg : lb.globalToken j with
      | none => rfl
      | some t =>
        obtain ⟨d, hd⟩ := mem_flagCells_local (b := b).mp ((globalToken_iff hl hp j t).mp hg)
        rw [← rankRows_getElem?_some hl r, hj, hc] at hd
        cases hd
    | some c =>
      obtain ⟨t, d⟩ := c
      rw [hc] at hj
      have hm := (rankRows_getElem?_some hl r).mp hj
      exact (globalToken_iff hl hp j t).mpr (mem_flagCells_local.mpr ⟨d, hm⟩)

theorem replicatedTokenMask_eq {lb : LocalBatch} (hp : PartitionSpec m b l r lb) :
    (List.range l.paddedNumTokens).map lb.replicatedTokenMask = (rankRows b l r).map Row.isDecode := by
  apply List.ext_getElem
  · simp [rankRows_length hl]
  · intro j h₁ h₂
    simp only [List.length_map, List.length_range] at h₁
    rw [List.getElem_map, List.getElem_map, List.getElem_range]
    have hb : j < (rankRows b l r).length := by simpa using h₂
    have hj : (rankRows b l r)[j]? = some (rankRows b l r)[j] := List.getElem?_eq_getElem hb
    have hmask : lb.replicatedTokenMask j = true ↔ ∃ t, (j, t) ∈ decodeCells b (l.segmentsByRank r) := by
      rw [hp.mask]
      constructor
      · intro hv
        obtain ⟨⟨j', t⟩, hm, he⟩ := List.mem_map.mp (mem_of_scatter_ne hv (by simp))
        simp only [Prod.mk.injEq, and_true] at he
        subst he
        exact ⟨t, hm⟩
      · rintro ⟨t, hm⟩
        refine scatter_of_mem _ ?_ (List.mem_map.mpr ⟨(j, t), hm, rfl⟩)
        rw [List.map_map]
        exact (localCells_fst_nodup hl r).sublist ((decodeCells_sublist b _).map _)
    rw [Bool.eq_iff_iff, hmask]
    simp only [mem_flagCells_decode, ← rankRows_getElem?_some hl r, hj, Option.some.injEq]
    cases (rankRows b l r)[j] with
    | none => simp [Row.isDecode]
    | some c => obtain ⟨t, d⟩ := c; simp [Row.isDecode]

theorem mem_owned_iff {j t : Nat} (hj : j < l.paddedNumTokens) :
    (r * l.paddedNumTokens + j, t) ∈ l.owned b ↔
      ∃ d, (j, some (t, d)) ∈ flagCells b (l.segmentsByRank r) ∧ (d = false ∨ r.val = 0) := by
  constructor
  · intro hm
    obtain ⟨r', _, hr'⟩ := List.mem_flatMap.mp hm
    obtain ⟨j', hj', hv⟩ := mem_rankCells.mp hr'
    obtain ⟨d, hd⟩ := mem_flagCells_local (b := b).mp hj'
    simp only [flagCells, List.mem_flatMap, List.mem_map, List.mem_filter] at hd
    obtain ⟨s, ⟨hs, ho⟩, ⟨j₁, t₁⟩, hc, he⟩ := hd
    simp only [Prod.mk.injEq, Option.some.injEq] at he
    obtain ⟨rfl, rfl, rfl⟩ := he
    have hlt : j₁ < l.paddedNumTokens :=
      localCells_lt hl r' (List.mem_flatMap.mpr ⟨s, hs, hc⟩)
    -- equal-width ranks: the row determines its rank and its local row
    have hrr : r = r' := by
      have h₁ : (r * l.paddedNumTokens + j) / l.paddedNumTokens = r := by
        rw [Nat.mul_comm, Nat.mul_add_div (by omega), Nat.div_eq_of_lt hj, Nat.add_zero]
      have h₂ : (r' * l.paddedNumTokens + j₁) / l.paddedNumTokens = r' := by
        rw [Nat.mul_comm, Nat.mul_add_div (by omega), Nat.div_eq_of_lt hlt, Nat.add_zero]
      exact Fin.ext (by rw [← h₁, hv, h₂])
    subst hrr
    have : j = j₁ := by omega
    subst this
    refine ⟨isDecodeRow b s, List.mem_flatMap.mpr ⟨s, hs, List.mem_map.mpr ⟨_, hc, rfl⟩⟩, ?_⟩
    simpa [ownsRow, isDecodeRow] using ho
  · rintro ⟨d, hd, ho⟩
    simp only [flagCells, List.mem_flatMap, List.mem_map] at hd
    obtain ⟨s, hs, ⟨j₁, t₁⟩, hc, he⟩ := hd
    simp only [Prod.mk.injEq, Option.some.injEq] at he
    obtain ⟨rfl, rfl, rfl⟩ := he
    refine List.mem_flatMap.mpr ⟨r, List.mem_finRange r, mem_rankCells.mpr ⟨j₁, ?_, rfl⟩⟩
    refine List.mem_flatMap.mpr ⟨s, List.mem_filter.mpr ⟨hs, ?_⟩, hc⟩
    simpa [ownsRow, isDecodeRow] using ho

theorem convert_rankRow (slots : Nat → Int) {j : Nat} {c : Row} (hc : (rankRows b l r)[j]? = some c) :
    convertSlotMappings l slots (r * l.paddedNumTokens + j) = rowSlot slots r c := by
  have hP : 0 < m.pcpSize := m.rank0.pos
  have hj : j < l.paddedNumTokens := by
    have := (List.getElem?_eq_some_iff.mp hc).1
    rwa [rankRows_length hl r] at this
  have hnot : (∀ t, (r * l.paddedNumTokens + j, t) ∉ l.owned b) →
      convertSlotMappings l slots (r * l.paddedNumTokens + j) = padSlotId := by
    intro hno
    rw [convertSlotMappings, if_neg]
    rw [mask_iff_owned hl]
    rintro ⟨t, ht⟩
    exact hno t ht
  cases c with
  | none =>
    refine hnot fun t ht => ?_
    obtain ⟨d, hd, _⟩ := (mem_owned_iff hl r hj).mp ht
    rw [← rankRows_getElem?_some hl r, hc] at hd
    cases hd
  | some td =>
    obtain ⟨t, d⟩ := td
    by_cases ho : d = false ∨ r.val = 0
    · have hm := (mem_owned_iff hl r hj).mpr ⟨d, (rankRows_getElem?_some hl r).mp hc, ho⟩
      rw [convert_of_restore hl hP slots ((restore_iff_owned hl hP _ t).mpr hm)]
      simp [rowSlot, ho]
    · rw [rowSlot, if_neg ho]
      refine hnot fun t' ht => ?_
      obtain ⟨d', hd, ho'⟩ := (mem_owned_iff hl r hj).mp ht
      rw [← rankRows_getElem?_some hl r, hc] at hd
      simp only [Option.some.injEq, Prod.mk.injEq] at hd
      exact ho (hd.2 ▸ ho')

end

end VllmHcu.Pcp
