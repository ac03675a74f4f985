import VllmHcu.Lib.Result
import VllmHcu.Moe.EpCombine
import VllmHcu.Moe.DpPipeSound

/-!
# The fused combine computes the plain one

`combine_equals_plain`: in a run of layers no assertion of the hand-over fails, and
where the ranks agree on a layer its rows are those of the plain tail.
`combine_completes_iff`: the ranks get to the end of a run just when they agree on
every layer of it.
-/

namespace VllmHcu.Moe

section
variable {dpSize tpSize : Nat} {M : Type}

/-! ## Rows -/

/-- The custom all-reduce takes the expert output of the layer. -/
def EpGroup.Reduces (g : EpGroup dpSize tpSize) : Prop :=
  g.caReady = true ∧ g.worldSize = dpSize * tpSize ∧ g.shouldCustomAr g.sizes.sum = true

instance (g : EpGroup dpSize tpSize) : Decidable g.Reduces :=
  inferInstanceAs (Decidable (_ ∧ _ ∧ _))

theorem epFusedRows_of_reduces {g : EpGroup dpSize tpSize} (h : g.Reduces) (d : Nat) :
    epFusedRows g d g.sizes.sum = some ((g.sizes.take d).sum, (g.sizes.take d).sum + g.sizes.getD d 0) := by
  obtain ⟨hca, hworld, hrows⟩ := h
  simp [epFusedRows, hca, hworld, hrows]

theorem epFusedRows_eq_none {g : EpGroup dpSize tpSize} (h : ¬ g.Reduces) (d n : Nat) : epFusedRows g d n = none := by
  unfold epFusedRows
  by_cases hca : g.caReady = true ∧ g.worldSize = dpSize * tpSize
  · by_cases hn : n = g.sizes.sum
    · have : g.shouldCustomAr g.sizes.sum = false := by
        rw [Bool.eq_false_iff]
        exact fun hr => h ⟨hca.1, hca.2, hr⟩
      simp [hca, hn, this]
    · simp [hn]
  · rw [not_and] at hca
    by_cases hready : g.caReady = true
    · simp [hready, hca hready]
    · simp [hready]

/-- The experts are called for the rows from 0 up to `n`, range after range. -/
def Consecutive : Nat → List (Nat × Nat) → Nat → Prop
  | a, [], n => a = n
  | a, c :: chunks, n => c.1 = a ∧ a ≤ c.2 ∧ Consecutive c.2 chunks n

instance Consecutive.decidable : (a : Nat) → (chunks : List (Nat × Nat)) → (n : Nat) → Decidable (Consecutive a chunks n)
  | a, [], n => inferInstanceAs (Decidable (a = n))
  | a, c :: chunks, n =>
    have := Consecutive.decidable c.2 chunks n
    inferInstanceAs (Decidable (c.1 = a ∧ a ≤ c.2 ∧ Consecutive c.2 chunks n))

theorem Consecutive.le {a n : Nat} {chunks : List (Nat × Nat)} (h : Consecutive a chunks n) : a ≤ n := by
  induction chunks generalizing a with
  | nil => exact Nat.le_of_eq h
  | cons c chunks ih =>
    obtain ⟨_, hle, hrest⟩ := h
    exact hle.trans (ih hrest)

/-- With an auxiliary stream there is an order for every number of tokens. -/
theorem SharedExperts.determineSharedExpertsOrder_ok {s : SharedExperts} (h : s.hasStream = true) (n : Nat) :
    ∃ order, s.determineSharedExpertsOrder n = .ok order := by
  unfold determineSharedExpertsOrder
  simp only [h, Bool.not_true, Bool.and_false, Bool.false_eq_true, if_false]
  split_ifs <;> exact ⟨_, rfl⟩

namespace MoeLayer

variable (L : MoeLayer dpSize tpSize M)

/-- The rank takes the fused all-reduce. -/
def Fuses (d : Nat) : Prop :=
  L.group.Reduces ∧ match L.path with
    | .naive => L.outputIsReduced = false
    | .modularKernel _ => L.order d = .ok .noOverlap
    | .pipe _ _ => False

/-- The calls of the experts cover the rows, and finalize leaves them unreduced. -/
structure Ok : Prop where
  ordered : ∀ d < dpSize, ∃ order, L.order d = .ok order
  chunks : match L.path with
    | .naive => True
    | .modularKernel chunks => Consecutive 0 chunks L.numTokens ∧ L.outputIsReduced = false
    | .pipe chunks _ => Consecutive 0 chunks L.numTokens

theorem outputIsReduced_of_fuses {d : Nat} (hok : L.Ok) (h : L.Fuses d) : L.outputIsReduced = false := by
  have hpath := h.2
  have hchunks := hok.chunks
  cases hp : L.path with
  | naive => rwa [hp] at hpath
  | modularKernel chunks =>
    rw [hp] at hchunks
    exact hchunks.2
  | pipe chunks launches =>
    rw [hp] at hpath
    exact hpath.elim

/-- The data-parallel ranks take the same collectives: in a layer that finalize can fuse, either on all of them
the shared expert has run before, or on none. -/
def Agree : Prop :=
  L.group.Reduces → match L.path with
    | .modularKernel _ => (∀ d < dpSize, L.order d = .ok .noOverlap) ∨ (∀ d < dpSize, L.order d ≠ .ok .noOverlap)
    | _ => True

theorem agree_iff : L.Agree ↔ ∀ d < dpSize, ∀ d' < dpSize, L.Fuses d → L.Fuses d' := by
  unfold Agree Fuses
  cases L.path with
  | naive => simp
  | pipe chunks launches => simp
  | modularKernel chunks =>
    constructor
    · rintro h d hd d' hd' ⟨hred, ho⟩
      obtain hall | hnone := h hred
      · exact ⟨hred, hall d' hd'⟩
      · exact absurd ho (hnone d hd)
    · intro h hred
      by_cases hd : ∃ d < dpSize, L.order d = .ok .noOverlap
      · obtain ⟨d, hd, ho⟩ := hd
        exact Or.inl fun d' hd' => (h d hd d' hd' ⟨hred, ho⟩).2
      · exact Or.inr fun d hlt ho => hd ⟨d, hlt, ho⟩

theorem own_row {d i q : Nat} (hi : i < L.size d) :
    (L.start q ≤ L.start d + i ∧ L.start d + i < L.start q + L.size q) ↔ q = d := by
  constructor
  · rintro ⟨hlo, hhi⟩
    have := offset_inj (offs_succ L.group.sizes) hi (j := L.start d + i - L.start q)
      (m := q) (show L.start d + i - L.start q < L.size q by omega)
      (show L.start d + i = L.start q + (L.start d + i - L.start q) by omega)
    exact this.1.symm
  · rintro rfl
    exact ⟨Nat.le_add_right _ _, by omega⟩

theorem own_row_lt {d i : Nat} (hi : i < L.size d) : L.start d + i < L.numTokens := by
  have hd : d < L.group.sizes.length := by
    by_contra hd
    have : L.size d = 0 := by simp [size, Nat.le_of_not_lt hd]
    omega
  have hle : DpPipe.offs L.group.sizes (d + 1) ≤ L.group.sizes.sum := offs_le_sum hd
  rw [offs_succ] at hle
  exact Nat.lt_of_lt_of_le (Nat.add_lt_add_left hi _) hle

theorem armed_eq {d t : Nat} {order : SharedExpertsOrder} (x : Nat → M)
    (h : (if order = .noOverlap then some (L.shared d t) else none) = some x) : x = L.shared d t := by
  by_cases ho : order = .noOverlap
  · rw [if_pos ho] at h
    exact (Option.some.inj h).symm
  · rw [if_neg ho] at h
    cases h

end MoeLayer

variable [AddCommMonoid M]

/-! ## The experts -/

namespace MoeLayer

variable (L : MoeLayer dpSize tpSize M) {d t : Nat}

/-- The routed rows of a rank with its shared output in its own rows. -/
def withShared (d t : Nat) : Nat → M := addRows (L.routed d t) (L.start d) (L.start d + L.size d) (L.shared d t)

/-- After the experts have done the rows below `b`: either nothing has been added, or the shared output has
gone into the whole tensor. -/
structure ChunkInv (d t : Nat) (shared : Option (Nat → M)) (b : Nat) (s : EpFusedCombineState M × (Nat → M)) : Prop where
  shared_eq : s.1.shared = shared
  done_eq : s.1.done = false
  rows : s.1.addedTo = none ∧ (∀ i < b, s.2 i = L.routed d t i) ∨
    s.1.addedTo = some (L.ptr, L.numTokens) ∧ shared.isSome = true ∧ L.group.Reduces ∧ b = L.numTokens ∧
      ∀ i < b, s.2 i = L.withShared d t i

theorem sharedAdd_cases (allowed : Bool) (ptr n : Nat) (s : EpFusedCombineState M) :
    s.sharedAdd L.group d allowed ptr n = (s, none) ∨
      ∃ x, s.shared = some x ∧ s.addedTo = none ∧ L.group.Reduces ∧ n = L.numTokens ∧
        s.sharedAdd L.group d allowed ptr n = ({ s with addedTo := some (ptr, n) }, some (x, L.start d)) := by
  unfold EpFusedCombineState.sharedAdd
  cases hs : s.shared with
  | none => simp
  | some x =>
    by_cases hskip : (!allowed || s.addedTo.isSome) = true
    · simp [hskip]
    · by_cases hred : L.group.Reduces
      · by_cases hn : n = L.group.sizes.sum
        · right
          simp only [Bool.or_eq_true, not_or, Bool.not_eq_true, Option.isSome_eq_false_iff, Option.isNone_iff_eq_none] at hskip
          simp [hn, epFusedRows_of_reduces hred, hskip, hred, numTokens, start]
        · left
          have : epFusedRows L.group d n = none := by
            simp [epFusedRows, hn]
          simp [this]
      · left
        simp [epFusedRows_eq_none hred]

theorem ChunkInv.step (allowed : Bool) {shared : Option (Nat → M)} (hshared : ∀ x, shared = some x → x = L.shared d t)
    {c : Nat × Nat} (hc : c.1 ≤ c.2) (hn : c.2 ≤ L.numTokens) {s : EpFusedCombineState M × (Nat → M)}
    (h : L.ChunkInv d t shared c.1 s) : L.ChunkInv d t shared c.2 (L.runChunk d t allowed s c) := by
  obtain ⟨hs, hdone, hrows⟩ := h
  obtain hno | ⟨x, hx, hadded, hred, hlen, hyes⟩ :=
    L.sharedAdd_cases (d := d) allowed (L.ptr + c.1 * L.rowBytes) (c.2 - c.1) s.1
  · unfold runChunk
    rw [hno]
    refine ⟨hs, hdone, ?_⟩
    obtain ⟨hnone, hr⟩ | ⟨hsome, hsh, hred, hb, hr⟩ := hrows
    · left
      refine ⟨hnone, fun i hi => ?_⟩
      by_cases hci : c.1 ≤ i
      · simp [hci, hi]
      · simp [hci, hr i (Nat.lt_of_not_le hci)]
    · -- the whole tensor is done, what follows is empty
      right
      have he : c.2 = c.1 := by omega
      refine ⟨hsome, hsh, hred, he ▸ hb, fun i hi => ?_⟩
      rw [he] at hi
      simp [Nat.not_le_of_lt hi, hr i hi]
  · -- a call for as many rows as there are is a call for all
    have hc1 : c.1 = 0 := by omega
    have hc2 : c.2 = L.numTokens := by omega
    unfold runChunk
    rw [hyes]
    refine ⟨hs, hdone, Or.inr ⟨?_, ?_, hred, hc2, fun i hi => ?_⟩⟩
    · simp [hc1, hc2]
    · rw [← hs, hx]
      rfl
    · have hxs : x = L.shared d t := hshared x (hs ▸ hx)
      simp [hc1, hi, withShared, addRows, hxs]

theorem chunkInv_foldl (allowed : Bool) {shared : Option (Nat → M)} (hshared : ∀ x, shared = some x → x = L.shared d t)
    (chunks : List (Nat × Nat)) {a : Nat} (hchunks : Consecutive a chunks L.numTokens)
    {s : EpFusedCombineState M × (Nat → M)} (h : L.ChunkInv d t shared a s) :
    L.ChunkInv d t shared L.numTokens (chunks.foldl (L.runChunk d t allowed) s) := by
  induction chunks generalizing a s with
  | nil =>
    cases hchunks
    exact h
  | cons c chunks ih =>
    obtain ⟨rfl, hle, hrest⟩ := hchunks
    exact ih hrest (h.step L allowed hshared hle hrest.le)

/-- Within a pipe the shared output is not given out. -/
theorem foldl_suspended (chunks : List (Nat × Nat)) (s : EpFusedCombineState M × (Nat → M)) :
    (chunks.foldl (L.runChunk d t false) s).1 = s.1 := by
  induction chunks generalizing s with
  | nil => rfl
  | cons c chunks ih =>
    rw [List.foldl_cons, ih]
    unfold runChunk EpFusedCombineState.sharedAdd
    cases s.1.shared <;> simp

/-! ## One layer on one rank -/

/-- How a rank ends the layer, and with which rows. -/
def EndsWith (d t : Nat) (tail : Tail M) : Prop :=
  L.Fuses d ∧ (∃ rows, tail = .fused rows (L.start d, L.start d + L.size d) ∧ ∀ i < L.numTokens, rows i = L.withShared d t i) ∨
    ¬ L.Fuses d ∧ ∃ rows, tail = .plain rows ∧ ∀ i < L.numTokens, rows i = L.routed d t i

theorem epFusedAllReduce_of_reduces (h : L.group.Reduces) (out : Nat → M) (shared : Option (Nat → M)) :
    epFusedAllReduce L.group d L.numTokens out shared =
      some ((match shared with | none => out | some x => addRows out (L.start d) (L.start d + L.size d) x),
        (L.start d, L.start d + L.size d)) := by
  unfold epFusedAllReduce numTokens
  rw [epFusedRows_of_reduces h]
  rfl

theorem epFusedAllReduce_eq_none (h : ¬ L.group.Reduces) (out : Nat → M) (shared : Option (Nat → M)) :
    epFusedAllReduce L.group d L.numTokens out shared = none := by
  simp [epFusedAllReduce, epFusedRows_eq_none h]

theorem maybeCombine_plain {s : EpFusedCombineState M} (hdone : s.done = false) (hadded : s.addedTo = none) (naive : Bool)
    (out : Nat → M) (combined : Option ((Nat → M) × (Nat × Nat))) :
    L.maybeCombine d t naive s out combined = .ok (.init, L.epFusedCombineOutput d t naive out) := by
  simp [maybeCombine, EpFusedCombineState.finish, hdone, hadded, EpFusedCombineState.init]

theorem maybeCombine_done {s : EpFusedCombineState M} (hdone : s.done = true) (naive : Bool) (out rows : Nat → M) (own : Nat × Nat) :
    L.maybeCombine d t naive s out (some (rows, own)) = .ok (.init, .fused rows own) := by
  simp [maybeCombine, EpFusedCombineState.finish, hdone, EpFusedCombineState.init]

theorem addRows_congr {x y : Nat → M} {n start stop : Nat} {add : Nat → M} (h : ∀ i < n, x i = y i) :
    ∀ i < n, addRows x start stop add i = addRows y start stop add i := by
  intro i hi
  simp [addRows, h i hi]

theorem runRank_naive (hpath : L.path = .naive) {order : SharedExpertsOrder} (horder : L.order d = .ok order) (junk : Nat → M)
    (s : EpFusedCombineState M) : ∃ tail, L.runRank d t junk s = .ok (.init, tail) ∧ L.EndsWith d t tail := by
  unfold runRank
  rw [horder, hpath]
  refine ⟨_, L.maybeCombine_plain rfl rfl true _ none, ?_⟩
  by_cases hf : L.Fuses d
  · left
    obtain ⟨hred, hout⟩ := hf
    have hout' : L.outputIsReduced = false := by rwa [hpath] at hout
    refine ⟨⟨hred, hout⟩, L.withShared d t, ?_, fun i _ => rfl⟩
    have hrows : (epFusedRows L.group d L.numTokens).isSome = true := by
      simp [numTokens, epFusedRows_of_reduces hred]
    simp only [epFusedCombineOutput, hout', hrows, L.epFusedAllReduce_of_reduces hred, Bool.not_false, Bool.and_self, if_true]
    rfl
  · right
    refine ⟨hf, L.routed d t, ?_, fun i _ => rfl⟩
    by_cases hred : L.group.Reduces
    · have hout : L.outputIsReduced = true := by
        rw [← Bool.not_eq_false]
        intro hout
        apply hf
        refine ⟨hred, ?_⟩
        rwa [hpath]
      simp [epFusedCombineOutput, hout]
    · simp [epFusedCombineOutput, epFusedRows_eq_none hred]

/-- What finalize does with the shared output, added by the experts or not. -/
theorem finalizeHook_spec {shared : Option (Nat → M)} (hshared : ∀ x, shared = some x → x = L.shared d t)
    {s : EpFusedCombineState M × (Nat → M)} (h : L.ChunkInv d t shared L.numTokens s) :
    ((shared.isSome = true ∧ L.group.Reduces) ∧ ∃ rows,
      s.1.finalizeHook L.group d L.ptr L.numTokens s.2 =
        .ok ({ s.1 with shared := none, done := true }, some (rows, (L.start d, L.start d + L.size d))) ∧
      ∀ i < L.numTokens, rows i = L.withShared d t i) ∨
    (¬ (shared.isSome = true ∧ L.group.Reduces) ∧ s.1.addedTo = none ∧
      s.1.finalizeHook L.group d L.ptr L.numTokens s.2 = .ok ({ s.1 with shared := none }, none) ∧
      ∀ i < L.numTokens, s.2 i = L.routed d t i) := by
  obtain ⟨hs, _, hrows⟩ := h
  unfold EpFusedCombineState.finalizeHook
  rw [hs]
  cases shared with
  | none =>
    obtain ⟨hnone, hr⟩ | ⟨_, hsh, _⟩ := hrows
    · right
      exact ⟨by simp, hnone, rfl, hr⟩
    · cases hsh
  | some x =>
    obtain rfl := hshared x rfl
    obtain ⟨hnone, hr⟩ | ⟨hsome, _, hred, _, hr⟩ := hrows
    · by_cases hred : L.group.Reduces
      · left
        refine ⟨⟨rfl, hred⟩, _, ?_, addRows_congr hr⟩
        simp [hnone, L.epFusedAllReduce_of_reduces hred]
      · right
        refine ⟨fun hf => hred hf.2, hnone, ?_, hr⟩
        simp [hnone, L.epFusedAllReduce_eq_none hred]
    · left
      refine ⟨⟨rfl, hred⟩, s.2, ?_, hr⟩
      simp [hsome, L.epFusedAllReduce_of_reduces hred]

theorem chunkInv_arm (order : SharedExpertsOrder) (junk : Nat → M) (s : EpFusedCombineState M) :
    L.ChunkInv d t (if order = .noOverlap then some (L.shared d t) else none) 0 (s.arm order (L.shared d t), junk) :=
  ⟨rfl, rfl, Or.inl ⟨rfl, fun _ hi => absurd hi (Nat.not_lt_zero _)⟩⟩

theorem runRank_modularKernel {chunks : List (Nat × Nat)} (hpath : L.path = .modularKernel chunks)
    (hchunks : Consecutive 0 chunks L.numTokens) {order : SharedExpertsOrder} (horder : L.order d = .ok order) (junk : Nat → M)
    (s : EpFusedCombineState M) : ∃ tail, L.runRank d t junk s = .ok (.init, tail) ∧ L.EndsWith d t tail := by
  have hfuses : L.Fuses d ↔
      (if order = .noOverlap then some (L.shared d t) else none).isSome = true ∧ L.group.Reduces := by
    unfold Fuses
    rw [hpath, horder]
    simp [and_comm]
  have hinv := L.chunkInv_foldl true L.armed_eq chunks hchunks (L.chunkInv_arm (d := d) (t := t) order junk s)
  unfold runRank
  rw [horder, hpath]
  dsimp only
  obtain ⟨hf, rows, hfin, hr⟩ | ⟨hf, hnone, hfin, hr⟩ := L.finalizeHook_spec L.armed_eq hinv
  · rw [hfin]
    exact ⟨_, L.maybeCombine_done rfl false _ _ _, Or.inl ⟨hfuses.mpr hf, rows, rfl, hr⟩⟩
  · rw [hfin]
    refine ⟨_, L.maybeCombine_plain hinv.done_eq hnone false _ none, Or.inr ⟨fun h => hf (hfuses.mp h), _, ?_, hr⟩⟩
    simp [epFusedCombineOutput]

theorem runRank_pipe {chunks : List (Nat × Nat)} {launches : Nat} (hpath : L.path = .pipe chunks launches)
    (hchunks : Consecutive 0 chunks L.numTokens) {order : SharedExpertsOrder} (horder : L.order d = .ok order) (junk : Nat → M)
    (s : EpFusedCombineState M) : ∃ tail, L.runRank d t junk s = .ok (.init, tail) ∧ L.EndsWith d t tail := by
  have hnf : ¬ L.Fuses d := by
    intro hf
    have := hf.2
    rwa [hpath] at this
  unfold runRank
  rw [horder, hpath]
  have hst := L.foldl_suspended (d := d) (t := t) chunks (s.arm order (L.shared d t), junk)
  have hinv := L.chunkInv_foldl false L.armed_eq chunks hchunks (L.chunkInv_arm (d := d) (t := t) order junk s)
  have hnone : (chunks.foldl (L.runChunk d t false) (s.arm order (L.shared d t), junk)).1.addedTo = none := by
    rw [hst]
    rfl
  obtain ⟨_, hr⟩ | ⟨hsome, _⟩ := hinv.rows
  · refine ⟨_, L.maybeCombine_plain hinv.done_eq hnone false _ none, Or.inr ⟨hnf, _, ?_, hr⟩⟩
    simp [epFusedCombineOutput]
  · rw [hnone] at hsome
    cases hsome

theorem runRank_spec (hok : L.Ok) (hd : d < dpSize) (junk : Nat → M) (s : EpFusedCombineState M) :
    ∃ tail, L.runRank d t junk s = .ok (.init, tail) ∧ L.EndsWith d t tail := by
  obtain ⟨order, horder⟩ := hok.ordered d hd
  have hchunks := hok.chunks
  cases hpath : L.path with
  | naive => exact L.runRank_naive hpath horder junk s
  | modularKernel chunks =>
    rw [hpath] at hchunks
    exact L.runRank_modularKernel hpath hchunks.1 horder junk s
  | pipe chunks launches =>
    rw [hpath] at hchunks
    exact L.runRank_pipe hpath hchunks horder junk s

/-! ## What the rows of a rank become -/

theorem withShared_own_row {i q : Nat} (hi : i < L.size d) :
    L.withShared q t (L.start d + i) = L.routed q t (L.start d + i) + if q = d then L.shared d t i else 0 := by
  unfold withShared addRows
  by_cases hq : q = d
  · subst hq
    rw [if_pos ((L.own_row hi).mpr rfl), if_pos rfl, Nat.add_sub_cancel_left]
  · rw [if_neg fun h => hq ((L.own_row hi).mp h), if_neg hq, add_zero]

theorem result_eq_plainResult (hok : L.Ok) (hagree : L.Agree) {tails : Nat → Nat → Tail M}
    (htails : ∀ q < dpSize, ∀ u < tpSize, L.EndsWith q u (tails q u)) (hd : d < dpSize) (ht : t < tpSize)
    {i : Nat} (hi : i < L.size d) : L.result tails d t i = L.plainResult d t i := by
  rw [agree_iff] at hagree
  have hrow := L.own_row_lt hi
  by_cases hf : L.Fuses d
  · have hpart : ∀ (q : Fin dpSize) (u : Fin tpSize), (tails q u).reduceRow (L.start d + i) =
        L.routed q u (L.start d + i) + if (q : Nat) = d then L.shared d u i else 0 := by
      intro q u
      obtain ⟨_, rows, hrows, hr⟩ | ⟨hnf, _⟩ := htails q q.isLt u u.isLt
      · rw [hrows]
        exact (hr _ hrow).trans (L.withShared_own_row hi)
      · exact absurd (hagree d hd q q.isLt hf) hnf
    obtain ⟨_, rows, hrows, _⟩ | ⟨hnf, _⟩ := htails d hd t ht
    · unfold plainResult
      simp only [result, hrows, L.outputIsReduced_of_fuses hok hf, Bool.false_eq_true, if_false]
      rw [Finset.sum_comm]
      apply Finset.sum_congr rfl
      intro u _
      rw [Finset.sum_congr rfl fun q _ => hpart q u, Finset.sum_add_distrib, add_comm]
      congr 1
      rw [Finset.sum_eq_single (⟨d, hd⟩ : Fin dpSize)]
      · simp
      · intro q _ hq
        rw [if_neg fun h => hq (Fin.ext h)]
      · simp
    · exact absurd hf hnf
  · have hpart : ∀ q < dpSize, ∀ u < tpSize, ∃ rows, tails q u = .plain rows ∧
        rows (L.start d + i) = L.routed q u (L.start d + i) := by
      intro q hq u hu
      obtain ⟨hfq, _⟩ | ⟨_, rows, hrows, hr⟩ := htails q hq u hu
      · exact absurd (hagree q hq d hd hfq) hf
      · exact ⟨rows, hrows, hr _ hrow⟩
    have hsum : ∀ u < tpSize, ∑ q : Fin dpSize, (tails q u).combineRow (L.start d + i) =
        ∑ q : Fin dpSize, L.routed q u (L.start d + i) := by
      intro u hu
      apply Finset.sum_congr rfl
      intro q _
      obtain ⟨rows, hq, hr⟩ := hpart q q.isLt u hu
      rw [hq]
      exact hr
    obtain ⟨rows, hrows, _⟩ := hpart d hd t ht
    unfold plainResult
    simp only [result, hrows]
    rw [hsum t ht]
    by_cases hred : L.outputIsReduced = true
    · rw [if_pos hred, if_pos hred]
      rfl
    · rw [if_neg hred, if_neg hred]
      exact Finset.sum_congr rfl fun u _ => congrArg (L.shared d u i + ·) (hsum u u.isLt)

end MoeLayer

/-! ## Runs -/

theorem runLayers_spec {d t : Nat} (hd : d < dpSize) (junk : Nat → Nat → M) :
    ∀ layers : List (MoeLayer dpSize tpSize M), (∀ L ∈ layers, L.Ok) →
      ∃ tails, runLayers d t junk .init layers = .ok (.init, tails) ∧ List.Forall₂ (fun L tail => L.EndsWith d t tail) layers tails
  | [], _ => ⟨[], rfl, .nil⟩
  | L :: layers, hok => by
    obtain ⟨tail, htail, hends⟩ := L.runRank_spec (t := t) (hok L List.mem_cons_self) hd (junk layers.length) .init
    obtain ⟨tails, htails, hall⟩ := runLayers_spec hd junk layers fun L' h => hok L' (List.mem_cons_of_mem L h)
    refine ⟨tail :: tails, ?_, .cons hends hall⟩
    rw [runLayers, htail]
    simp only [htails]

/-- No assertion of the hand-over fails in a run of layers, and nothing is left over from one layer to the next.
A rank takes the fused all-reduce where it can, and where the ranks agree they have the rows of the plain tail. -/
theorem combine_equals_plain (layers : List (MoeLayer dpSize tpSize M)) (hok : ∀ L ∈ layers, L.Ok)
    (junk : Nat → Nat → Nat → Nat → M) :
    ∃ tails : Nat → Nat → List (Tail M),
      (∀ d < dpSize, ∀ t, runLayers d t (junk d t) .init layers = .ok (.init, tails d t)) ∧
      ∀ (k : Nat) (L : MoeLayer dpSize tpSize M), layers[k]? = some L →
        (∀ d < dpSize, ∀ t, ((tails d t)[k]?.map Tail.isFused = some true ↔ L.Fuses d)) ∧
        (L.Agree → ∀ d < dpSize, ∀ t < tpSize, ∀ i < L.size d,
          L.result (fun d t => (tails d t).getD k (.bare 0)) d t i = L.plainResult d t i) := by
  have hrun : ∀ d t, ∃ tails, d < dpSize → runLayers d t (junk d t) .init layers = .ok (.init, tails) ∧
      List.Forall₂ (fun L tail => L.EndsWith d t tail) layers tails := by
    intro d t
    by_cases hd : d < dpSize
    · obtain ⟨tails, h⟩ := runLayers_spec (t := t) hd (junk d t) layers hok
      exact ⟨tails, fun _ => h⟩
    · exact ⟨[], fun h => absurd h hd⟩
  choose tails htails using hrun
  refine ⟨tails, fun d hd t => (htails d t hd).1, fun k L hL => ⟨fun d hd t => ?_, fun hagree d hd t ht i hi => ?_⟩⟩
  · obtain ⟨tail, htail, hends⟩ := forall₂_getElem? (htails d t hd).2 hL
    rw [htail]
    obtain ⟨hf, rows, rfl, _⟩ | ⟨hf, rows, rfl, _⟩ := hends
    · simp [Tail.isFused, hf]
    · simp [Tail.isFused, hf]
  · apply L.result_eq_plainResult (hok L (List.mem_of_getElem? hL)) hagree _ hd ht hi
    intro q hq u _
    obtain ⟨tail, htail, hends⟩ := forall₂_getElem? (htails q u hq).2 hL
    rwa [List.getD_eq_getElem?_getD, htail]

/-- Two by two ranks with one and two tokens. The shared experts go to a stream of their own up to `threshold` tokens. -/
def smallLayer (threshold : Nat) : MoeLayer 2 2 Int where
  group := { worldSize := 4, caReady := true, shouldCustomAr := fun n => n ≤ 64, sizes := [1, 2] }
  sharedExperts :=
    { useCustomOps := false, earlyLaunch := false, streamForce := false, deepepEplbOverlap := false, step5Owner := true
      lateStreamMinTokens := 0, streamTokenThreshold := threshold, cudaAlike := true, hasStream := true, enableDbo := false
      dboEnabled := false, enableEplb := false, all2allBackend := .allgatherReducescatter, useFiNvlTwoSidedKernels := false
      mkCanOverlap := false, isMultistreamSafe := true, isSequenceParallel := false, pcpSize := 1, fusedRouterStream := false
      fusedRouterSharedMaxM := none, hasActivation := fun _ => false }
  path := .modularKernel [(0, 3)]
  outputIsReduced := false
  ptr := 4096
  rowBytes := 8
  routed := fun d t i => 100 * d + 10 * t + i
  shared := fun d t i => 1000 * d + 500 * t + i
  before := [.tp]

theorem smallLayer_ok (threshold : Nat) : (smallLayer threshold).Ok where
  ordered := fun _ _ => SharedExperts.determineSharedExpertsOrder_ok rfl _
  chunks := ⟨⟨rfl, Nat.zero_le 3, rfl⟩, rfl⟩

theorem combine_equals_plain_small :
    (∀ L ∈ [smallLayer 0], L.Ok) ∧ (smallLayer 0).Agree ∧ ∃ tails : Nat → Nat → List (Tail Int),
      (∀ d < 2, ∀ t, runLayers d t (fun _ _ => 7) .init [smallLayer 0] = .ok (.init, tails d t)) ∧
      ∀ d < 2, ∀ t < 2, ∀ i < (smallLayer 0).size d,
        (smallLayer 0).result (fun d t => (tails d t).getD 0 (.bare 0)) d t i = (smallLayer 0).plainResult d t i := by
  have hok : ∀ L ∈ [smallLayer 0], L.Ok := by
    intro L hL
    rw [List.mem_singleton.mp hL]
    exact smallLayer_ok 0
  have hagree : (smallLayer 0).Agree := by
    intro _
    left
    intro d hd
    obtain rfl | rfl : d = 0 ∨ d = 1 := by omega
    · rfl
    · rfl
  obtain ⟨tails, hrun, hvalue⟩ := combine_equals_plain [smallLayer 0] hok fun _ _ _ _ => 7
  exact ⟨hok, hagree, tails, hrun, (hvalue 0 _ rfl).2 hagree⟩

/-! ## Interleavings -/

omit [AddCommMonoid M] in
theorem groupPeers_equivalence (o : Group) : Equivalence (@groupPeers dpSize tpSize o) := by
  cases o with
  | ep => exact ⟨fun _ => trivial, fun _ => trivial, fun _ _ => trivial⟩
  | dp => exact ⟨fun _ => rfl, Eq.symm, Eq.trans⟩
  | tp => exact ⟨fun _ => rfl, Eq.symm, Eq.trans⟩

theorem MoeLayer.collectives_eq (L : MoeLayer dpSize tpSize M) {d t d' t' : Nat} {tail tail' : Tail M}
    (hf : L.Fuses d ↔ L.Fuses d') (h : L.EndsWith d t tail) (h' : L.EndsWith d' t' tail') :
    L.collectives tail = L.collectives tail' := by
  obtain ⟨hfd, rows, rfl, _⟩ | ⟨hfd, rows, rfl, _⟩ := h
  · obtain ⟨_, rows', rfl, _⟩ | ⟨hfd', _⟩ := h'
    · unfold collectives
      cases L.path <;> rfl
    · exact absurd (hf.mp hfd) hfd'
  · obtain ⟨hfd', _⟩ | ⟨_, rows', rfl, _⟩ := h'
    · exact absurd (hf.mpr hfd') hfd
    · unfold collectives
      cases L.path <;> rfl

/-- Ranks that do not agree part after the dispatch of the layer. -/
theorem MoeLayer.collectives_of_not_agree (L : MoeLayer dpSize tpSize M) (hagree : ¬ L.Agree) {d t : Nat} {tail : Tail M}
    (h : L.EndsWith d t tail) :
    L.Fuses d ∧ L.collectives tail = L.before ++ [.dp] ++ [.ep] ∨ ¬ L.Fuses d ∧ L.collectives tail = L.before ++ [.dp] ++ [.dp, .tp] := by
  unfold Agree at hagree
  cases hpath : L.path with
  | naive => simp [hpath] at hagree
  | pipe chunks launches => simp [hpath] at hagree
  | modularKernel chunks =>
    obtain ⟨hf, rows, rfl, _⟩ | ⟨hf, rows, rfl, _⟩ := h
    · exact Or.inl ⟨hf, by simp [collectives, hpath]⟩
    · exact Or.inr ⟨hf, by simp [collectives, hpath]⟩

omit [AddCommMonoid M] in
theorem rankProgram_cons (L : MoeLayer dpSize tpSize M) (layers : List (MoeLayer dpSize tpSize M)) (tail : Tail M) (tails : List (Tail M)) :
    rankProgram (L :: layers) (tail :: tails) = L.collectives tail ++ rankProgram layers tails := by
  simp [rankProgram]

theorem rankProgram_eq {layers : List (MoeLayer dpSize tpSize M)} (hagree : ∀ L ∈ layers, L.Agree) {d t d' t' : Nat}
    (hd : d < dpSize) (hd' : d' < dpSize) {tails tails' : List (Tail M)}
    (h : List.Forall₂ (fun L tail => L.EndsWith d t tail) layers tails)
    (h' : List.Forall₂ (fun L tail => L.EndsWith d' t' tail) layers tails') :
    rankProgram layers tails = rankProgram layers tails' := by
  induction h generalizing tails' with
  | nil =>
    cases h'
    rfl
  | @cons L tail layers tails hends _ ih =>
    obtain ⟨tail', rest', hends', hrest', rfl⟩ := List.forall₂_cons_left_iff.mp h'
    have hL := L.agree_iff.mp (hagree L List.mem_cons_self)
    rw [rankProgram_cons, rankProgram_cons, L.collectives_eq ⟨hL d hd d' hd', hL d' hd' d hd⟩ hends hends',
      ih (fun L' hL' => hagree L' (List.mem_cons_of_mem L hL')) hrest']

/-- Where a layer is not agreed on, every rank comes to a collective that another one does not take. -/
theorem exists_stuck {layers : List (MoeLayer dpSize tpSize M)} (hdis : ∃ L ∈ layers, ¬ L.Agree)
    {tails : Fin dpSize × Fin tpSize → List (Tail M)}
    (h : ∀ r, List.Forall₂ (fun L tail => L.EndsWith r.1 r.2 tail) layers (tails r)) :
    ∃ pre : List Group, ∀ r, pre <+: rankProgram layers (tails r) ∧ pre.length < (rankProgram layers (tails r)).length ∧
      ∀ o, (rankProgram layers (tails r))[pre.length]? = some o →
        ∃ q, groupPeers o r q ∧ (rankProgram layers (tails q))[pre.length]? ≠ some o := by
  induction layers generalizing tails with
  | nil => simp at hdis
  | cons L layers ih =>
    choose tail rest hends hrest htails using fun r => List.forall₂_cons_left_iff.mp (h r)
    have hprog : ∀ r, rankProgram (L :: layers) (tails r) = L.collectives (tail r) ++ rankProgram layers (rest r) := by
      intro r
      rw [htails r, rankProgram_cons]
    by_cases hL : L.Agree
    · have hdis' : ∃ L' ∈ layers, ¬ L'.Agree := by
        obtain ⟨L', hmem, hL'⟩ := hdis
        obtain rfl | hmem := List.mem_cons.mp hmem
        · exact absurd hL hL'
        · exact ⟨L', hmem, hL'⟩
      obtain ⟨pre, hpre⟩ := ih hdis' hrest
      by_cases hne : Nonempty (Fin dpSize × Fin tpSize)
      · obtain ⟨r₀⟩ := hne
        have hc : ∀ r, L.collectives (tail r) = L.collectives (tail r₀) := by
          intro r
          have hL := L.agree_iff.mp hL
          exact L.collectives_eq ⟨hL _ r.1.isLt _ r₀.1.isLt, hL _ r₀.1.isLt _ r.1.isLt⟩ (hends r) (hends r₀)
        have hat : ∀ r, (rankProgram (L :: layers) (tails r))[(L.collectives (tail r₀) ++ pre).length]? =
            (rankProgram layers (rest r))[pre.length]? := by
          intro r
          rw [hprog, hc, List.length_append, List.getElem?_append_right (Nat.le_add_right _ _), Nat.add_sub_cancel_left]
        refine ⟨L.collectives (tail r₀) ++ pre, fun r => ?_⟩
        obtain ⟨hp, hlt, hwait⟩ := hpre r
        refine ⟨?_, ?_, fun o ho => ?_⟩
        · rw [hprog, hc r]
          exact (List.prefix_append_right_inj _).mpr hp
        · rw [hprog, hc r, List.length_append, List.length_append]
          exact Nat.add_lt_add_left hlt _
        · rw [hat] at ho
          obtain ⟨q, hq, hne⟩ := hwait o ho
          exact ⟨q, hq, by rwa [hat]⟩
      · exact ⟨[], fun r => absurd ⟨r⟩ hne⟩
    · have hnext : ∀ r, L.Fuses r.1 ∧ (∃ l, rankProgram (L :: layers) (tails r) = (L.before ++ [.dp]) ++ .ep :: l) ∨
          ¬ L.Fuses r.1 ∧ ∃ l, rankProgram (L :: layers) (tails r) = (L.before ++ [.dp]) ++ .dp :: l := by
        intro r
        obtain ⟨hf, hc⟩ | ⟨hf, hc⟩ := L.collectives_of_not_agree hL (hends r)
        · exact Or.inl ⟨hf, rankProgram layers (rest r), by simp [hprog, hc]⟩
        · exact Or.inr ⟨hf, .tp :: rankProgram layers (rest r), by simp [hprog, hc]⟩
      have hL' := hL
      simp only [L.agree_iff, not_forall] at hL'
      obtain ⟨d₁, hd₁, d₂, hd₂, hf₁, hf₂⟩ := hL'
      refine ⟨L.before ++ [.dp], fun r => ?_⟩
      obtain ⟨hf, l, hl⟩ | ⟨hf, l, hl⟩ := hnext r
      · rw [hl]
        refine ⟨List.prefix_append _ _, by simp, fun o ho => ⟨(⟨d₂, hd₂⟩, r.2), ?_⟩⟩
        rw [List.getElem?_append_right (Nat.le_refl _), Nat.sub_self] at ho
        obtain rfl : Group.ep = o := Option.some.inj ho
        obtain ⟨hq, _⟩ | ⟨_, l', hl'⟩ := hnext (⟨d₂, hd₂⟩, r.2)
        · exact absurd hq hf₂
        · exact ⟨trivial, by rw [hl']; simp⟩
      · rw [hl]
        refine ⟨List.prefix_append _ _, by simp, fun o ho => ⟨(⟨d₁, hd₁⟩, r.2), ?_⟩⟩
        rw [List.getElem?_append_right (Nat.le_refl _), Nat.sub_self] at ho
        obtain rfl : Group.dp = o := Option.some.inj ho
        obtain ⟨_, l', hl'⟩ | ⟨hq, _⟩ := hnext (⟨d₁, hd₁⟩, r.2)
        · exact ⟨rfl, by rw [hl']; simp⟩
        · exact absurd hf₁ hq

/-- In some interleaving of their collectives the ranks get to the end of a run just when they agree on every layer,
and then they get there from every state of every interleaving. -/
theorem combine_completes_iff (htp : 0 < tpSize) (layers : List (MoeLayer dpSize tpSize M)) (hok : ∀ L ∈ layers, L.Ok)
    (junk : Fin dpSize × Fin tpSize → Nat → Nat → M) :
    ∃ tails : Fin dpSize × Fin tpSize → List (Tail M),
      (∀ r, runLayers r.1 r.2 (junk r) .init layers = .ok (.init, tails r)) ∧
      ((∃ s, Met groupPeers (fun r => rankProgram layers (tails r)) s ∧ AllDone (fun r => rankProgram layers (tails r)) s) ↔
        ∀ L ∈ layers, L.Agree) ∧
      ((∀ L ∈ layers, L.Agree) → ∀ s, Met groupPeers (fun r => rankProgram layers (tails r)) s →
        ∃ t, Relation.ReflTransGen (MeetStep groupPeers fun r => rankProgram layers (tails r)) s t ∧
          AllDone (fun r => rankProgram layers (tails r)) t) := by
  choose tails hrun hends using fun r : Fin dpSize × Fin tpSize => runLayers_spec (t := r.2) r.1.isLt (junk r) layers hok
  have hdone : (∀ L ∈ layers, L.Agree) → ∀ s, Met groupPeers (fun r => rankProgram layers (tails r)) s →
      ∃ t, Relation.ReflTransGen (MeetStep groupPeers fun r => rankProgram layers (tails r)) s t ∧
        AllDone (fun r => rankProgram layers (tails r)) t := by
    intro hagree s hs
    by_cases hne : Nonempty (Fin dpSize × Fin tpSize)
    · obtain ⟨r₀⟩ := hne
      exact hs.reaches_end groupPeers_equivalence fun r => rankProgram_eq hagree r.1.isLt r₀.1.isLt (hends r) (hends r₀)
    · exact ⟨s, .refl, fun r => absurd ⟨r⟩ hne⟩
  refine ⟨tails, hrun, ⟨?_, fun hagree => ?_⟩, hdone⟩
  · rintro ⟨s, hs, hall⟩
    by_contra hdis
    simp only [not_forall] at hdis
    obtain ⟨L, hmem, hL⟩ := hdis
    obtain ⟨pre, hpre⟩ := exists_stuck ⟨L, hmem, hL⟩ hends
    have hle := hs.stuck groupPeers_equivalence (fun r => (hpre r).1) fun r => (hpre r).2.2
    -- the layer has ranks that disagree
    have hL' := hL
    simp only [L.agree_iff, not_forall] at hL'
    obtain ⟨d, hd, _⟩ := hL'
    have hlt := (hpre (⟨d, hd⟩, ⟨0, htp⟩)).2.1
    have := hle (⟨d, hd⟩, ⟨0, htp⟩)
    rw [hall] at this
    exact absurd this (Nat.not_le_of_lt hlt)
  · obtain ⟨t, ht, hall⟩ := hdone hagree _ .refl
    exact ⟨t, ht, hall⟩

/-- With one token more than the threshold on the second data-parallel rank, no interleaving gets to the end. -/
theorem combine_completes_iff_small :
    (∀ L ∈ [smallLayer 1], L.Ok) ∧ ∃ tails : Fin 2 × Fin 2 → List (Tail Int),
      (∀ r, runLayers r.1 r.2 (fun _ _ => 7) .init [smallLayer 1] = .ok (.init, tails r)) ∧
      ¬ ∃ s, Met groupPeers (fun r => rankProgram [smallLayer 1] (tails r)) s ∧ AllDone (fun r => rankProgram [smallLayer 1] (tails r)) s := by
  have hok : ∀ L ∈ [smallLayer 1], L.Ok := by
    intro L hL
    rw [List.mem_singleton.mp hL]
    exact smallLayer_ok 1
  obtain ⟨tails, hrun, hiff, _⟩ := combine_completes_iff Nat.two_pos [smallLayer 1] hok fun _ _ _ => 7
  refine ⟨hok, tails, hrun, fun hdone => ?_⟩
  obtain hall | hnone := hiff.mp hdone _ (List.mem_singleton.mpr rfl) ⟨rfl, rfl, rfl⟩
  · exact absurd (hall 0 Nat.two_pos) (by decide)
  · exact hnone 1 Nat.one_lt_two rfl

end

end VllmHcu.Moe
