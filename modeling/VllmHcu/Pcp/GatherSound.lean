import VllmHcu.Pcp.Gather
import VllmHcu.Pcp.AlignSound

/-!
# The gathered cache writes

A rank sends its own partitioned rows, picked with its own mask, and reads the
slots of every rank's rows with that same mask. The pairs are right exactly when
the masks of the ranks agree.
-/

namespace VllmHcu.Pcp

/-! ## Boolean indexing -/

section
variable {α β : Type*}

theorem select_cons_true (m : List Bool) (x : α) (xs : List α) :
    select (true :: m) (x :: xs) = x :: select m xs := rfl

theorem select_cons_false (m : List Bool) (x : α) (xs : List α) :
    select (false :: m) (x :: xs) = select m xs := rfl

theorem select_map (f : α → β) : ∀ (m : List Bool) (xs : List α),
    select m (xs.map f) = (select m xs).map f
  | [], xs => by simp [select]
  | _ :: _, [] => by simp [select]
  | true :: m, x :: xs => by
    rw [List.map_cons, select_cons_true, select_cons_true, List.map_cons, select_map]
  | false :: m, x :: xs => by rw [List.map_cons, select_cons_false, select_cons_false, select_map]

theorem select_append : ∀ (m₁ m₂ : List Bool) (xs ys : List α), m₁.length = xs.length →
    select (m₁ ++ m₂) (xs ++ ys) = select m₁ xs ++ select m₂ ys
  | [], m₂, [], ys, _ => rfl
  | true :: m₁, m₂, x :: xs, ys, h => by
    rw [List.cons_append, List.cons_append, select_cons_true, select_cons_true, List.cons_append,
      select_append m₁ m₂ xs ys (Nat.succ.inj h)]
  | false :: m₁, m₂, x :: xs, ys, h => by
    rw [List.cons_append, List.cons_append, select_cons_false, select_cons_false,
      select_append m₁ m₂ xs ys (Nat.succ.inj h)]

theorem select_length : ∀ (m : List Bool) (xs : List α), m.length = xs.length →
    (select m xs).length = m.count true
  | [], [], _ => rfl
  | true :: m, x :: xs, h => by
    rw [select_cons_true, List.length_cons, select_length m xs (Nat.succ.inj h), List.count_cons]
    simp
  | false :: m, x :: xs, h => by
    rw [select_cons_false, select_length m xs (Nat.succ.inj h), List.count_cons]
    simp

theorem select_subset (m : List Bool) (xs : List α) : ∀ x ∈ select m xs, x ∈ xs := by
  intro x hx
  obtain ⟨⟨x', c⟩, hm, rfl⟩ := List.mem_map.mp hx
  exact (List.of_mem_zip (List.mem_filter.mp hm).1).1

theorem select_self (p : α → Bool) : ∀ xs : List α, select (xs.map p) xs = xs.filter p
  | [] => rfl
  | x :: xs => by
    rw [List.map_cons]
    cases hp : p x with
    | true => rw [select_cons_true, select_self p xs, List.filter_cons_of_pos hp]
    | false => rw [select_cons_false, select_self p xs, List.filter_cons_of_neg (by simp [hp])]

theorem zip_flatMap {ι : Type*} (is : List ι) (f : ι → List α) (g : ι → List β)
    (h : ∀ i, (f i).length = (g i).length) :
    (is.flatMap f).zip (is.flatMap g) = is.flatMap fun i => (f i).zip (g i) := by
  induction is with
  | nil => rfl
  | cons i is ih => rw [List.flatMap_cons, List.flatMap_cons, List.flatMap_cons, List.zip_append (h i), ih]

/-- Looking up the selected indices reads what each selected row needs. -/
theorem lookupAll_select {slots : List Int} {f : α → Int} : ∀ (mask : List Bool) (idx : List Nat)
    (rows : List α), idx.length = mask.length → rows.length = mask.length →
    (∀ (j i : Nat) (c : α), mask[j]? = some true → idx[j]? = some i → rows[j]? = some c → slots[i]? = some (f c)) →
    lookupAll slots (select mask idx) = .ok ((select mask rows).map f)
  | [], _, _, _, _, _ => by simp [select, lookupAll, pure, Except.pure]
  | _ :: _, [], _, hi, _, _ => by cases hi
  | _ :: _, _ :: _, [], _, hr, _ => by cases hr
  | false :: mask, i :: idx, c :: rows, hi, hr, h => by
    rw [select_cons_false, select_cons_false]
    exact lookupAll_select mask idx rows (Nat.succ.inj hi) (Nat.succ.inj hr) fun j => h (j + 1)
  | true :: mask, i :: idx, c :: rows, hi, hr, h => by
    have hrest := lookupAll_select mask idx rows (Nat.succ.inj hi) (Nat.succ.inj hr) fun j => h (j + 1)
    have hhead := h 0 i c rfl rfl rfl
    unfold lookupAll at hrest ⊢
    rw [select_cons_true, select_cons_true, List.mapM_cons, hrest, hhead]
    rfl

theorem first_difference : ∀ {l₁ l₂ : List Bool}, l₁.length = l₂.length → l₁ ≠ l₂ →
    ∃ p x s₁ s₂, l₁ = p ++ x :: s₁ ∧ l₂ = p ++ (!x) :: s₂
  | [], [], _, h => absurd rfl h
  | a :: l₁, c :: l₂, hn, h => by
    by_cases hac : a = c
    · subst hac
      obtain ⟨p, x, s₁, s₂, h₁, h₂⟩ := first_difference (Nat.succ.inj hn) fun he => h (by rw [he])
      exact ⟨a :: p, x, s₁, s₂, by rw [h₁]; rfl, by rw [h₂]; rfl⟩
    · refine ⟨[], a, l₁, l₂, rfl, ?_⟩
      cases a <;> cases c <;> simp_all

end

/-- With every assertion met, the gather takes the ownership-aware branch. -/
theorem gatherPrefillCacheInputs_owned {P : Nat} {β : Type} {tensors : Fin P → List β} {slots : List Int}
    {md : Fin P → Option CacheMetadata} {rank : Fin P} {c : CacheMetadata} {d : Nat} {mask : List Bool}
    {idx : List Nat} (hmd : md rank = some c) (hpre : c.pcpHasGlobalPrefill ≠ some false)
    (hworld : c.pcpWorldSize = P) (hP : P ≠ 1) (hdec : c.numDecodeTokens = some d)
    (hd : d ≤ (tensors rank).length) (hmask : c.pcpReplicatedTokenMask = some mask)
    (hml : mask.length = (tensors rank).length) (hidx : c.pcpReplicatedSlotIndices = some idx)
    (hil : idx.length = (tensors rank).length) (hsl : slots.length = P * (tensors rank).length) :
    gatherPrefillCacheInputs tensors slots md rank =
      gatherOwned tensors (fun r => ((md r).bind (·.pcpReplicatedTokenMask)).getD []) idx slots rank := by
  unfold gatherPrefillCacheInputs
  rw [hmd]
  dsimp only
  rw [if_neg hpre, hworld, if_neg hP, hdec]
  dsimp only
  rw [hmask, hidx]
  simp [assertThat, hd, hml, hil, hsl, bind, Except.bind]

/-! ## The tokens of the rows -/

/-- The tokens of the decode rows (`d`) or of the other rows. -/
def rowTokens (d : Bool) (rows : List Row) : List Nat :=
  rows.filterMap fun c => c.bind fun td => if td.2 = d then some td.1 else none

theorem rowTokens_rowsOf (b : InputBatch) (d : Bool) (segs : List BatchSegment) :
    rowTokens d (rowsOf b segs) = (segs.filter fun s => isDecodeRow b s == d).flatMap segTokens := by
  rw [rowTokens, rowsOf, List.filterMap_flatMap, ← flatMap_ite_filter]
  refine List.flatMap_congr fun s _ => ?_
  rw [segRows, List.filterMap_append, List.filterMap_map]
  by_cases hd : isDecodeRow b s = d
  · simp [hd]
  · simp [hd]

theorem rowTokens_rankRows (b : InputBatch) {P : Nat} (l : BatchLayout P) (r : Fin P) (d : Bool) :
    rowTokens d (rankRows b l r) =
      ((l.segmentsByRank r).filter fun s => isDecodeRow b s == d).flatMap segTokens := by
  rw [rankRows, ← rowTokens_rowsOf]
  simp [rowTokens, List.filterMap_append]

theorem mem_rowTokens {d : Bool} {t : Nat} {rows : List Row} (h : some (t, d) ∈ rows) :
    t ∈ rowTokens d rows := List.mem_filterMap.mpr ⟨_, h, by simp⟩

theorem flatMap_rank0_perm {β : Type*} {P : Nat} (hP : 0 < P) (f g : Fin P → List β) :
    ((List.finRange P).flatMap fun r => (if r.val = 0 then f r else []) ++ g r).Perm
      (f ⟨0, hP⟩ ++ (List.finRange P).flatMap g) := by
  refine (List.flatMap_append_perm _ _ _).symm.trans (List.Perm.append_right _ ?_)
  cases P with
  | zero => cases hP
  | succ n =>
    have hrest : ((List.finRange n).map Fin.succ).flatMap (fun r => if r.val = 0 then f r else []) = [] :=
      List.flatMap_eq_nil_iff.mpr fun r hr => by
        obtain ⟨r', _, rfl⟩ := List.mem_map.mp hr
        simp
    rw [List.finRange_succ, List.flatMap_cons, hrest, List.append_nil]
    exact List.Perm.refl _

section
variable {m : HcuPCPManager} {b : InputBatch} {padded : Option Nat} {l : BatchLayout m.pcpSize}
  (hl : m.buildBatchLayout b padded = .ok l)
include hl

theorem decode_tokens_perm (r : Fin m.pcpSize) :
    (rowTokens true (rankRows b l r)).Perm (decodeTokens b) := by
  obtain ⟨_, hs, _⟩ := buildBatchLayout_spec hl
  rw [rowTokens_rankRows, hs]
  simpa only [decodeCells_tokens, beq_true] using decodeCells_tokens_perm m.useMla b r

/-- The decode tokens of any rank and the other tokens of all ranks are the batch. -/
theorem rank_tokens_perm (r : Fin m.pcpSize) :
    (rowTokens true (rankRows b l r) ++
      (List.finRange m.pcpSize).flatMap fun r' => rowTokens false (rankRows b l r')).Perm
      (List.range b.numTokens) := by
  have hP : 0 < m.pcpSize := m.rank0.pos
  have h₀ := (decode_tokens_perm hl r).trans (decode_tokens_perm hl ⟨0, hP⟩).symm
  refine (h₀.append_right _).trans ?_
  refine (flatMap_rank0_perm hP (fun r => rowTokens true (rankRows b l r))
    fun r => rowTokens false (rankRows b l r)).symm.trans ?_
  refine List.Perm.trans ?_ (owned_tokens_perm hl hP)
  rw [BatchLayout.owned, ownedCells_snd]
  refine List.Perm.flatMap_left _ fun r' _ => ?_
  rw [rowTokens_rankRows, rowTokens_rankRows]
  by_cases hr : r'.val = 0
  · -- rank 0 owns its decode rows too
    have hall : (l.segmentsByRank r').filter (ownsRow b r') = l.segmentsByRank r' :=
      List.filter_eq_self.mpr fun s _ => by simp [ownsRow, hr]
    have hnot : (fun s => isDecodeRow b s == false) = fun s => !isDecodeRow b s := by
      funext s; simp
    rw [if_pos hr, hall, ← List.flatMap_append, hnot]
    simp only [beq_true]
    exact (List.filter_append_perm (isDecodeRow b) _).flatMap_right segTokens
  · have howns : (fun s => isDecodeRow b s == false) = ownsRow b r' := by
      funext s; simp [ownsRow, isDecodeRow, hr]
    rw [if_neg hr, List.nil_append, howns]

theorem rankRow_token_lt {r : Fin m.pcpSize} {t : Nat} {d : Bool} (h : some (t, d) ∈ rankRows b l r) :
    t < b.numTokens := by
  rw [← List.mem_range, ← (rank_tokens_perm hl r).mem_iff, List.mem_append]
  cases d with
  | true => exact .inl (mem_rowTokens h)
  | false => exact .inr (List.mem_flatMap.mpr ⟨r, List.mem_finRange r, mem_rowTokens h⟩)

theorem prefill_row_once {r : Fin m.pcpSize} {rp rs : List Row} {t : Nat}
    (hrows : rankRows b l r = rp ++ some (t, false) :: rs) (d : Bool) : some (t, d) ∉ rs := by
  intro hmem
  have hnd := (rank_tokens_perm hl r).nodup_iff.mpr List.nodup_range
  obtain ⟨_, hrest, hdisj⟩ := List.nodup_append.mp hnd
  have hfalse : t ∈ rowTokens false (rankRows b l r) := mem_rowTokens (by rw [hrows]; simp)
  cases d with
  | true =>
    refine hdisj t (mem_rowTokens (by rw [hrows]; simp [hmem])) t ?_ rfl
    exact List.mem_flatMap.mpr ⟨r, List.mem_finRange r, hfalse⟩
  | false =>
    have hr : (rowTokens false (rankRows b l r)).Nodup :=
      (List.nodup_flatMap.mp hrest).1 r (List.mem_finRange r)
    have hsplit : rowTokens false (rankRows b l r) = rowTokens false rp ++ t :: rowTokens false rs := by
      rw [hrows]
      simp [rowTokens]
    rw [hsplit] at hr
    exact (List.nodup_cons.mp (List.nodup_append.mp hr).2.1).1 (mem_rowTokens hmem)

/-! ## The inputs of the gather -/

theorem partition_of_layout {r : Fin m.pcpSize} {lb : LocalBatch} (hlb : m.partitionBatch b padded r = .ok lb) :
    PartitionSpec m b l r lb := by
  obtain ⟨l', hl', h⟩ := partitionBatch_spec hlb
  cases hl.symm.trans hl'
  exact h

/-- The converted slots of one KV-cache group, all ranks in order. -/
def slotTensor {P : Nat} (l : BatchLayout P) (slots : Nat → Int) : List Int :=
  (List.range (P * l.paddedNumTokens)).map (convertSlotMappings l slots)

omit hl in
theorem slotTensor_length (slots : Nat → Int) :
    (slotTensor l slots).length = m.pcpSize * l.paddedNumTokens := by simp [slotTensor]

theorem rankSlots_eq (slots : Nat → Int) (r : Fin m.pcpSize) :
    rankSlots l.paddedNumTokens (slotTensor l slots) r = (rankRows b l r).map (rowSlot slots r) := by
  have hw : r * l.paddedNumTokens + l.paddedNumTokens ≤ m.pcpSize * l.paddedNumTokens := by
    rw [← Nat.succ_mul]
    exact Nat.mul_le_mul_right _ r.isLt
  apply List.ext_getElem?
  intro j
  rw [rankSlots, List.getElem?_take, List.getElem?_map]
  by_cases hj : j < l.paddedNumTokens
  · have hlen : j < (rankRows b l r).length := by rwa [rankRows_length hl r]
    have hc : (rankRows b l r)[j]? = some (rankRows b l r)[j] := List.getElem?_eq_getElem hlen
    rw [if_pos hj, List.getElem?_drop, slotTensor, List.getElem?_map,
      List.getElem?_range (show r * l.paddedNumTokens + j < _ by omega), hc]
    exact congrArg some (convert_rankRow hl r slots hc)
  · rw [if_neg hj, List.getElem?_eq_none (l := rankRows b l r) (by rw [rankRows_length hl r]; omega)]
    rfl

/-- A decode row finds its token's slot at the row the token has on rank 0. -/
theorem replicated_slot (slots : Nat → Int) {r : Fin m.pcpSize} {lb : LocalBatch}
    (hp : PartitionSpec m b l r lb) {j : Nat} {c : Row} (hc : (rankRows b l r)[j]? = some c)
    (hd : c.isDecode = true) :
    (rankSlots l.paddedNumTokens (slotTensor l slots) 0)[lb.replicatedSlotIndices j]? =
      some (rowSlot slots 0 c) := by
  obtain ⟨_, hs, _⟩ := buildBatchLayout_spec hl
  cases c with
  | none => cases hd
  | some td =>
    obtain ⟨t, d⟩ := td
    cases (hd : d = true)
    have hcell : (j, t) ∈ decodeCells b (l.segmentsByRank r) :=
      mem_flagCells_decode.mpr ((rankRows_getElem?_some hl r).mp hc)
    -- the token is a decode token, so rank 0 holds it too
    have hmem : t ∈ rowTokens true (rankRows b l m.rank0) :=
      (decode_tokens_perm hl m.rank0).mem_iff.mpr ((decode_tokens_perm hl r).mem_iff.mp
        (mem_rowTokens (List.mem_of_getElem? hc)))
    rw [rowTokens_rankRows, hs] at hmem
    simp only [beq_true] at hmem
    rw [← decodeCells_tokens] at hmem
    obtain ⟨⟨j₀, t'⟩, hm₀, rfl⟩ := List.mem_map.mp hmem
    have hidx : lb.replicatedSlotIndices j = j₀ := by
      rw [hp.slots]
      refine scatter_of_mem _ ?_ (List.mem_map.mpr ⟨(j, t'), hcell, ?_⟩)
      · rw [List.map_map]
        exact (localCells_fst_nodup hl r).sublist ((decodeCells_sublist b _).map _)
      · rw [hs, (rank0DecodePosition_iff m.useMla b m.rank0 j₀ t').mpr hm₀]
        rfl
    have hrow : (rankRows b l m.rank0)[j₀]? = some (some (t', true)) := by
      rw [rankRows_getElem?_some hl m.rank0, hs]
      exact mem_flagCells_decode.mp hm₀
    have hslots : rankSlots l.paddedNumTokens (slotTensor l slots) 0 =
        (rankRows b l m.rank0).map (rowSlot slots 0) := rankSlots_eq hl slots m.rank0
    rw [hidx, hslots, List.getElem?_map, hrow]
    rfl

/-- The metadata built from a rank-local batch; `d` is the builder's decode count. -/
def cacheMetadata (m : HcuPCPManager) (b : InputBatch) (lb : LocalBatch) (d : Nat) : CacheMetadata where
  pcpHasGlobalPrefill := some b.hasPrefill
  pcpWorldSize := m.pcpSize
  numDecodeTokens := some d
  pcpReplicatedTokenMask := some ((List.range lb.numTokensAfterPadding).map lb.replicatedTokenMask)
  pcpReplicatedSlotIndices := some ((List.range lb.numTokensAfterPadding).map lb.replicatedSlotIndices)

/-- The rows that a rank gathers, as the global tokens they hold. -/
def cacheRows (lb : LocalBatch) : List (Option Nat) :=
  (List.range lb.numTokensAfterPadding).map lb.globalToken

/-- Rows and slots that `rank` writes: its decode rows, then each rank's other rows with the
slots that the mask of `rank` picks. -/
theorem gather_eq (slots : Nat → Int) (hprefill : b.hasPrefill = true)
    {lb : Fin m.pcpSize → LocalBatch} (hp : ∀ r, PartitionSpec m b l r (lb r))
    {d : Nat} (hd : d ≤ l.paddedNumTokens) (rank : Fin m.pcpSize) :
    gatherPrefillCacheInputs (fun r => cacheRows (lb r)) (slotTensor l slots)
        (fun r => some (cacheMetadata m b (lb r) d)) rank =
      .ok (((rankRows b l rank).filter Row.isDecode).map Row.token ++
          (List.finRange m.pcpSize).flatMap fun r =>
            (select ((rankMask b l r).map (!·)) (rankRows b l r)).map Row.token,
        ((rankRows b l rank).filter Row.isDecode).map (rowSlot slots 0) ++
          (List.finRange m.pcpSize).flatMap fun r =>
            (select ((rankMask b l rank).map (!·)) (rankRows b l r)).map (rowSlot slots r)) := by
  have hrows : ∀ r, cacheRows (lb r) = (rankRows b l r).map Row.token := fun r => by
    rw [cacheRows, (hp r).width, globalToken_eq hl r (hp r)]
  have hmask : ∀ r, (List.range (lb r).numTokensAfterPadding).map (lb r).replicatedTokenMask =
      rankMask b l r := fun r => by
    rw [(hp r).width, replicatedTokenMask_eq hl r (hp r), rankMask]
  have hone : m.pcpSize ≠ 1 := Nat.ne_of_gt m.one_lt_pcpSize
  have hlen : ∀ r, (rankRows b l r).length = l.paddedNumTokens := rankRows_length hl
  have hlook : lookupAll (rankSlots l.paddedNumTokens (slotTensor l slots) 0)
      (select (rankMask b l rank) ((List.range l.paddedNumTokens).map (lb rank).replicatedSlotIndices)) =
      .ok (((rankRows b l rank).filter Row.isDecode).map (rowSlot slots 0)) := by
    rw [← select_self]
    refine lookupAll_select _ _ _ (by simp [rankMask, hlen]) (by simp [rankMask]) fun j i c hm hi hc => ?_
    have hdec : c.isDecode = true := by
      rw [rankMask, List.getElem?_map, hc] at hm
      exact Option.some.inj hm
    have hj : j < l.paddedNumTokens := by
      have := (List.getElem?_eq_some_iff.mp hc).1
      rwa [hlen] at this
    rw [List.getElem?_map, List.getElem?_range hj] at hi
    cases hi
    exact replicated_slot hl slots (hp rank) hc hdec
  have hidx : (List.range (lb rank).numTokensAfterPadding).map (lb rank).replicatedSlotIndices =
      (List.range l.paddedNumTokens).map (lb rank).replicatedSlotIndices := by rw [(hp rank).width]
  have hpick : ∀ r : Fin m.pcpSize, select ((rankMask b l rank).map (!·))
      (rankSlots l.paddedNumTokens (slotTensor l slots) r) =
      (select ((rankMask b l rank).map (!·)) (rankRows b l r)).map (rowSlot slots r) := fun r => by
    rw [rankSlots_eq hl slots r, select_map]
  have hown : select (rankMask b l rank) ((rankRows b l rank).map Row.token) =
      ((rankRows b l rank).filter Row.isDecode).map Row.token := by
    rw [select_map, rankMask, select_self]
  have hwidth : (cacheRows (lb rank)).length = l.paddedNumTokens := by rw [hrows, List.length_map, hlen]
  have hcount : (List.range (lb rank).numTokensAfterPadding).length = (cacheRows (lb rank)).length := by
    rw [hwidth, List.length_range, (hp rank).width]
  refine Eq.trans (gatherPrefillCacheInputs_owned (c := cacheMetadata m b (lb rank) d) rfl
    (by simp [cacheMetadata, hprefill]) rfl hone rfl (by rwa [hwidth]) rfl
    (by rw [List.length_map, hcount]) rfl (by rw [List.length_map, hcount])
    (by rw [hwidth, slotTensor_length])) ?_
  simp only [gatherOwned, cacheMetadata, Option.bind_some, Option.getD_some, hmask, hidx, hrows,
    List.length_map, hlen, hlook, hown, hpick, allGather]
  simp only [select_map]
  rfl

end

/-! ## Agreement of the writes -/

/-- Every token of a batch of `n` tokens is written once, to its own slot, and a row without a
token is written nowhere. -/
structure WritesAgree (slots : Nat → Int) (n : Nat) (out : List (Option Nat) × List Int) : Prop where
  lengths : out.1.length = out.2.length
  tokens : ((out.1.zip out.2).filter (·.1.isSome)).Perm ((List.range n).map fun t => (some t, slots t))
  padding : ∀ c ∈ out.1.zip out.2, c.1 = none → c.2 = padSlotId

theorem filter_rows_pairs (slots : Nat → Int) (rank : Nat) (d : Bool) (h : d = false ∨ rank = 0) :
    ∀ rows : List Row, (((rows.filter fun c => c.isDecode == d).map fun c =>
        (c.token, rowSlot slots rank c)).filter (·.1.isSome)) =
      (rowTokens d rows).map fun t => (some t, slots t)
  | [] => rfl
  | none :: rows => by
    have ih := filter_rows_pairs slots rank d h rows
    cases d with
    | true => simpa [Row.isDecode, rowTokens] using ih
    | false => simpa [Row.isDecode, Row.token, rowTokens] using ih
  | some (t, d') :: rows => by
    have ih := filter_rows_pairs slots rank d h rows
    by_cases hd : d' = d
    · subst hd
      simpa [Row.isDecode, Row.token, rowTokens, rowSlot, h] using ih
    · simpa [Row.isDecode, rowTokens, hd] using ih

section
variable {m : HcuPCPManager} {b : InputBatch} {padded : Option Nat} {l : BatchLayout m.pcpSize}
  (hl : m.buildBatchLayout b padded = .ok l) (slots : Nat → Int) (rank : Fin m.pcpSize)
include hl

/-- The rows of rank `r` that `rank` gathers, with the slots it picks for them. -/
def pickedPairs (b : InputBatch) {P : Nat} (l : BatchLayout P) (slots : Nat → Int) (rank r : Fin P) :
    List (Option Nat × Int) :=
  ((select ((rankMask b l r).map (!·)) (rankRows b l r)).map Row.token).zip
    ((select ((rankMask b l rank).map (!·)) (rankRows b l r)).map (rowSlot slots r))

theorem picked_length (r r' : Fin m.pcpSize) :
    (select ((rankMask b l r).map (!·)) (rankRows b l r')).length = l.paddedNumTokens - decodeCount b.reqs := by
  have hlen : (rankMask b l r).length = l.paddedNumTokens := by simp [rankMask, rankRows_length hl]
  have hcount : ∀ l : List Bool, (l.map (!·)).count true = l.count false := by
    intro l
    induction l with
    | nil => rfl
    | cons c l ih => cases c <;> simp [ih]
  have hsum : ∀ l : List Bool, l.count true + l.count false = l.length := by
    intro l
    induction l with
    | nil => rfl
    | cons c l ih => cases c <;> simp <;> omega
  have := hsum (rankMask b l r)
  rw [rankMask_count hl, hlen] at this
  rw [select_length _ _ (by rw [List.length_map, hlen, rankRows_length hl]), hcount]
  omega

/-- What `rank` writes: its decode rows, then the rows it picks from each rank. -/
theorem gather_zip (hprefill : b.hasPrefill = true) {lb : Fin m.pcpSize → LocalBatch}
    (hp : ∀ r, PartitionSpec m b l r (lb r)) {d : Nat} (hd : d ≤ l.paddedNumTokens) :
    ∃ out, gatherPrefillCacheInputs (fun r => cacheRows (lb r)) (slotTensor l slots)
        (fun r => some (cacheMetadata m b (lb r) d)) rank = .ok out ∧ out.1.length = out.2.length ∧
      out.1.zip out.2 = (((rankRows b l rank).filter Row.isDecode).map fun c =>
          (c.token, rowSlot slots 0 c)) ++
        (List.finRange m.pcpSize).flatMap (pickedPairs b l slots rank) := by
  refine ⟨_, gather_eq hl slots hprefill hp hd rank, ?_, ?_⟩
  · simp only [List.length_append, List.length_map, List.length_flatMap, picked_length hl]
  · rw [List.zip_append (by simp), zip_flatMap _ _ _ fun r => by
      rw [List.length_map, List.length_map, picked_length hl, picked_length hl], List.zip_map']
    rfl

omit hl in
theorem select_own_mask (r : Fin m.pcpSize) :
    select ((rankMask b l r).map (!·)) (rankRows b l r) =
      (rankRows b l r).filter fun c => c.isDecode == false := by
  rw [rankMask, List.map_map, select_self]
  congr 1
  funext c
  simp

/-- With equal masks, the slots picked for a rank's rows are those rows' own slots. -/
theorem writesAgree_of_masks (hmask : ∀ r r', rankMask b l r = rankMask b l r')
    {out : List (Option Nat) × List Int} (hlen : out.1.length = out.2.length)
    (hzip : out.1.zip out.2 = (((rankRows b l rank).filter Row.isDecode).map fun c =>
        (c.token, rowSlot slots 0 c)) ++ (List.finRange m.pcpSize).flatMap (pickedPairs b l slots rank)) :
    WritesAgree slots b.numTokens out := by
  have hpick : ∀ r, pickedPairs b l slots rank r =
      ((rankRows b l r).filter fun c => c.isDecode == false).map fun c => (c.token, rowSlot slots r c) := by
    intro r
    rw [pickedPairs, hmask rank r, select_own_mask, List.zip_map']
  have hnone : ∀ (k : Nat) (rows : List Row), ∀ c ∈ rows.map fun c => (c.token, rowSlot slots k c),
      c.1 = none → c.2 = padSlotId := by
    intro k rows c hc h
    obtain ⟨c', _, rfl⟩ := List.mem_map.mp hc
    cases c' with
    | none => rfl
    | some td => cases h
  refine ⟨hlen, ?_, ?_⟩
  · have hdec := filter_rows_pairs slots 0 true (.inr rfl) (rankRows b l rank)
    simp only [beq_true] at hdec
    rw [hzip, List.filter_append, hdec, List.filter_flatMap]
    simp only [hpick, filter_rows_pairs slots _ false (.inl rfl)]
    rw [← List.map_flatMap, ← List.map_append]
    exact (rank_tokens_perm hl rank).map _
  · rw [hzip]
    intro c hc
    rcases List.mem_append.mp hc with hc | hc
    · exact hnone 0 _ c hc
    · obtain ⟨r, _, hr⟩ := List.mem_flatMap.mp hc
      rw [hpick] at hr
      exact hnone r _ c hr

theorem row_before_decode {r : Fin m.pcpSize} {rp rs : List Row} {c : Row}
    (hrows : rankRows b l r = rp ++ c :: rs) (hdec : ∃ c' ∈ rs, c'.isDecode = true) :
    ∃ t d, c = some (t, d) := by
  obtain ⟨rest, hsplit, hrest⟩ := rankRows_split hl r
  obtain ⟨c', hc', hd'⟩ := hdec
  have hnot : c' ∉ rest := fun h => by simp [hrest c' h] at hd'
  rw [hrows] at hsplit
  rcases List.append_eq_append_iff.mp hsplit with ⟨a, ha, hb⟩ | ⟨a, ha, hb⟩
  · cases a with
    | nil =>
      rw [List.nil_append] at hb
      exact absurd (hb ▸ List.mem_cons_of_mem c hc') hnot
    | cons x a =>
      obtain ⟨rfl, _⟩ := List.cons.inj hb
      exact leadRows_some (b := b) (r := r) (by rw [ha]; simp)
  · exact absurd (by rw [hb]; simp [hc']) hnot

/-- A decode row of `rank` where rank `r` has none shifts the slots picked for the rows of `r`. -/
theorem not_writesAgree_of_split (hinj : ∀ t < b.numTokens, ∀ t' < b.numTokens, slots t = slots t' → t = t')
    (hpad : ∀ t < b.numTokens, slots t ≠ padSlotId) {r : Fin m.pcpSize} {p s₁ s₂ : List Bool}
    (h₁ : rankMask b l rank = p ++ true :: s₁) (h₂ : rankMask b l r = p ++ false :: s₂)
    {out : List (Option Nat) × List Int}
    (hzip : out.1.zip out.2 = (((rankRows b l rank).filter Row.isDecode).map fun c =>
        (c.token, rowSlot slots 0 c)) ++ (List.finRange m.pcpSize).flatMap (pickedPairs b l slots rank))
    (hag : WritesAgree slots b.numTokens out) : False := by
  -- the rows of `r` around the first row where the masks differ
  obtain ⟨rp, rest, hrows, hp, hrest⟩ := List.map_eq_append_iff.mp h₂
  obtain ⟨c, rs, rfl, hc, hs₂⟩ := List.map_eq_cons_iff.mp hrest
  have hcount : s₂.count true = s₁.count true + 1 := by
    have h := (rankMask_count hl rank).trans (rankMask_count hl r).symm
    rw [h₁, h₂] at h
    simp [List.count_append] at h
    omega
  obtain ⟨t, d, rfl⟩ : ∃ t d, c = some (t, d) := by
    refine row_before_decode hl hrows ?_
    obtain ⟨c', hm, hd⟩ := List.mem_map.mp (hs₂ ▸ List.count_pos_iff.mp (show 0 < s₂.count true by omega))
    exact ⟨c', hm, hd⟩
  cases (hc : d = false)
  have hpl : (p.map (!·)).length = rp.length := by rw [← hp, List.length_map, List.length_map]
  have hrow : select ((rankMask b l r).map (!·)) (rankRows b l r) =
      select (p.map (!·)) rp ++ some (t, false) :: select (s₂.map (!·)) rs := by
    rw [h₂, hrows, List.map_append, select_append _ _ _ _ hpl]
    rfl
  have hslot : select ((rankMask b l rank).map (!·)) (rankRows b l r) =
      select (p.map (!·)) rp ++ select (s₁.map (!·)) rs := by
    rw [h₁, hrows, List.map_append, select_append _ _ _ _ hpl]
    rfl
  -- the slot next to token `t` is that of a later row
  obtain ⟨c', rest, hne⟩ : ∃ c' rest, select (s₁.map (!·)) rs = c' :: rest := by
    have h := (picked_length hl r r).trans (picked_length hl rank r).symm
    rw [hrow, hslot, List.length_append, List.length_append, List.length_cons] at h
    cases hsel : select (s₁.map (!·)) rs with
    | nil => rw [hsel, List.length_nil] at h; omega
    | cons c' rest => exact ⟨c', rest, rfl⟩
  have hlater : c' ∈ rs := select_subset (s₁.map (!·)) rs c' (by rw [hne]; simp)
  have hpair : (some t, rowSlot slots r c') ∈ out.1.zip out.2 := by
    rw [hzip]
    refine List.mem_append_right _ (List.mem_flatMap.mpr ⟨r, List.mem_finRange r, ?_⟩)
    rw [pickedPairs, hrow, hslot, hne, List.map_append, List.map_append, List.zip_append (by simp)]
    exact List.mem_append_right _ (List.mem_cons_self ..)
  obtain ⟨t₀, ht₀, he⟩ := List.mem_map.mp (hag.tokens.mem_iff.mp (List.mem_filter.mpr ⟨hpair, rfl⟩))
  simp only [Prod.mk.injEq, Option.some.injEq] at he
  obtain ⟨rfl, hs⟩ := he
  cases c' with
  | none => exact hpad t₀ (List.mem_range.mp ht₀) hs
  | some td' =>
    obtain ⟨t', d'⟩ := td'
    have hmem : some (t', d') ∈ rankRows b l r := by rw [hrows]; simp [hlater]
    by_cases ho : d' = false ∨ r.val = 0
    · rw [rowSlot, if_pos ho] at hs
      have := hinj t₀ (List.mem_range.mp ht₀) t' (rankRow_token_lt hl hmem) hs
      subst this
      exact prefill_row_once hl hrows d' hlater
    · rw [rowSlot, if_neg ho] at hs
      exact hpad t₀ (List.mem_range.mp ht₀) hs

end

/-- On every rank the gathered writes are right exactly when the decode rows of the ranks align. -/
theorem gather_agrees_iff_aligned (m : HcuPCPManager) (b : InputBatch)
    (hprefill : b.hasPrefill = true) (hpos : ∀ q ∈ b.reqs, 0 < q.numScheduledTokens)
    (padded : Option Nat) (l : BatchLayout m.pcpSize) (hl : m.buildBatchLayout b padded = .ok l)
    (lb : Fin m.pcpSize → LocalBatch) (hlb : ∀ r, m.partitionBatch b padded r = .ok (lb r))
    (slots : Nat → Int) (hinj : ∀ t < b.numTokens, ∀ t' < b.numTokens, slots t = slots t' → t = t')
    (hpad : ∀ t < b.numTokens, slots t ≠ padSlotId) (d : Nat) (hd : d ≤ l.paddedNumTokens) :
    (∀ rank, ∃ out, gatherPrefillCacheInputs (fun r => cacheRows (lb r)) (slotTensor l slots)
        (fun r => some (cacheMetadata m b (lb r) d)) rank = .ok out ∧
      WritesAgree slots b.numTokens out) ↔ DecodeRowsAligned b m.pcpSize := by
  have hp := fun r => partition_of_layout hl (hlb r)
  rw [← masks_equal_iff_aligned hl hpos]
  constructor
  · intro h r r'
    by_contra hne
    obtain ⟨p, x, s₁, s₂, h₁, h₂⟩ := first_difference (by simp [rankMask, rankRows_length hl]) hne
    have hno : ∀ (rank r : Fin m.pcpSize) (s₁ s₂ : List Bool), rankMask b l rank = p ++ true :: s₁ →
        rankMask b l r = p ++ false :: s₂ → False := by
      intro rank r s₁ s₂ h₁ h₂
      obtain ⟨out, hout, hag⟩ := h rank
      obtain ⟨out', hout', _, hzip⟩ := gather_zip hl slots rank hprefill hp hd
      cases hout.symm.trans hout'
      exact not_writesAgree_of_split hl slots rank hinj hpad h₁ h₂ hzip hag
    cases x with
    | true => exact hno r r' s₁ s₂ h₁ h₂
    | false => exact hno r' r s₂ s₁ h₂ h₁
  · intro hmask rank
    obtain ⟨out, hout, hlen, hzip⟩ := gather_zip hl slots rank hprefill hp hd
    exact ⟨out, hout, writesAgree_of_masks hl slots rank hmask hlen hzip⟩

/-- A decode of two tokens before a continued prefill of three: the writes agree. -/
theorem gather_agrees_decode_first :
    ∃ (l : BatchLayout 2) (lb : Fin 2 → LocalBatch), (HcuPCPManager.mk 2 (by decide) true 6 64).buildBatchLayout
        ⟨[⟨2, 18, false⟩, ⟨3, 3, true⟩]⟩ none = .ok l ∧
      (∀ r, (HcuPCPManager.mk 2 (by decide) true 6 64).partitionBatch
        ⟨[⟨2, 18, false⟩, ⟨3, 3, true⟩]⟩ none r = .ok (lb r)) ∧
      ∀ rank, ∃ out, gatherPrefillCacheInputs (fun r => cacheRows (lb r))
          (slotTensor l fun t => (t : Int) + 10)
          (fun r => some (cacheMetadata ⟨2, by decide, true, 6, 64⟩ ⟨[⟨2, 18, false⟩, ⟨3, 3, true⟩]⟩ (lb r) 2))
          rank = .ok out ∧
        WritesAgree (fun t => (t : Int) + 10) 5 out := by
  obtain ⟨l, hl⟩ : ∃ l, (HcuPCPManager.mk 2 (by decide) true 6 64).buildBatchLayout
      ⟨[⟨2, 18, false⟩, ⟨3, 3, true⟩]⟩ none = .ok l := by
    refine buildBatchLayout_ok ?_
    intro w hw
    cases hw
  obtain ⟨_, hsegs, _⟩ := buildBatchLayout_spec hl
  have hwidth : l.paddedNumTokens = 4 := (buildBatchLayout_width hl).trans (by decide +kernel)
  have hreqs : ∀ r, (localSegments (l.segmentsByRank r)).length ≤ 6 := by
    rw [hsegs]
    decide +kernel
  choose lb hlb using fun r => partitionBatch_ok hl r (hreqs r) (by rw [hwidth]; decide)
  refine ⟨l, lb, hl, hlb, ?_⟩
  refine (gather_agrees_iff_aligned ⟨2, by decide, true, 6, 64⟩ ⟨[⟨2, 18, false⟩, ⟨3, 3, true⟩]⟩ rfl
    (by decide) none l hl lb hlb _ (fun t _ t' _ h => by omega)
    (fun t _ => by unfold padSlotId; omega) 2 (by rw [hwidth]; decide)).mpr ?_
  intro i q hi hq r r'
  match i, hi with
  | 0, _ => rfl
  | 1, hi => cases hi; cases hq

/-- A continued prefill of three tokens before a decode of two: rank 0 writes token 2 nowhere, and
rank 1 writes a padding row into the slot of decode token 3. -/
theorem gather_loses_token_after_prefill :
    ∃ (l : BatchLayout 2) (lb : Fin 2 → LocalBatch), (HcuPCPManager.mk 2 (by decide) true 6 64).buildBatchLayout
        ⟨[⟨3, 3, true⟩, ⟨2, 18, false⟩]⟩ none = .ok l ∧
      (∀ r, (HcuPCPManager.mk 2 (by decide) true 6 64).partitionBatch
        ⟨[⟨3, 3, true⟩, ⟨2, 18, false⟩]⟩ none r = .ok (lb r)) ∧
      ∀ rank, ∃ out, gatherPrefillCacheInputs (fun r => cacheRows (lb r))
          (slotTensor l fun t => (t : Int) + 10)
          (fun r => some (cacheMetadata ⟨2, by decide, true, 6, 64⟩ ⟨[⟨3, 3, true⟩, ⟨2, 18, false⟩]⟩ (lb r) 2))
          rank = .ok out ∧
        ¬ WritesAgree (fun t => (t : Int) + 10) 5 out := by
  obtain ⟨l, hl⟩ : ∃ l, (HcuPCPManager.mk 2 (by decide) true 6 64).buildBatchLayout
      ⟨[⟨3, 3, true⟩, ⟨2, 18, false⟩]⟩ none = .ok l := by
    refine buildBatchLayout_ok ?_
    intro w hw
    cases hw
  obtain ⟨_, hsegs, _⟩ := buildBatchLayout_spec hl
  have hwidth : l.paddedNumTokens = 4 := (buildBatchLayout_width hl).trans (by decide +kernel)
  have hreqs : ∀ r, (localSegments (l.segmentsByRank r)).length ≤ 6 := by
    rw [hsegs]
    decide +kernel
  choose lb hlb using fun r => partitionBatch_ok hl r (hreqs r) (by rw [hwidth]; decide)
  have hrows : rankRows ⟨[⟨3, 3, true⟩, ⟨2, 18, false⟩]⟩ l = fun r =>
      if r = 0 then [some (0, false), some (3, true), some (4, true), none]
      else [some (1, false), some (2, false), some (3, true), some (4, true)] := by
    funext r
    rw [rankRows, hsegs, hwidth]
    revert r
    decide +kernel
  have hp := fun r => partition_of_layout hl (hlb r)
  have hd : 2 ≤ l.paddedNumTokens := by rw [hwidth]; decide
  refine ⟨l, lb, hl, hlb, Fin.forall_fin_two.mpr ⟨⟨([some 3, some 4, some 0, none, some 1, some 2],
    [13, 14, 10, padSlotId, 11, padSlotId]), ?_, fun h => ?_⟩,
    ⟨([some 3, some 4, some 0, none, some 1, some 2], [13, 14, 10, 13, 11, 12]), ?_, fun h => ?_⟩⟩⟩
  · rw [gather_eq hl _ rfl hp hd]
    simp only [rankMask, hrows]
    rfl
  · have := h.tokens.mem_iff.mp (show (some 2, padSlotId) ∈ _ by decide)
    revert this
    decide
  · rw [gather_eq hl _ rfl hp hd]
    simp only [rankMask, hrows]
    rfl
  · have := h.padding (none, 13) (by decide) rfl
    revert this
    decide

end VllmHcu.Pcp
