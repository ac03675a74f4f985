import Mathlib.Data.Nat.Count
import VllmHcu.CustomAr.KernelSound
import VllmHcu.Lib.Causal

/-!
# The barriers

As long as no counter wraps, the flag of a block is twice the number of launches
that had the block, so that a thread that goes on has seen the signal of its own
launch. What the barriers order is then enough for every read: a registered
buffer is copied over after its readers have reached the second barrier, and the
temporary buffer is stored over after its readers have ended their launch.
-/

namespace VllmHcu.CustomAr

namespace Group

section
variable {P A : Type} {G : Group P A}

/-! ## Events and what they wait for -/

def IsEvent (G : Group P A) (e : Event) : Prop := e.rank < G.world ∧ e ∈ G.stream e.rank e.launch

theorem mem_copies {r k : Nat} {e : Event} :
    e ∈ G.copies r k ↔ ∃ idx < (G.launchAt k).size, e = ⟨r, k, .copy idx⟩ := by
  unfold copies
  simp only [List.mem_map, List.mem_range, eq_comm]

theorem mem_stream_copy {r r' k k' idx : Nat} :
    (⟨r', k', .copy idx⟩ : Event) ∈ G.stream r k ↔ r' = r ∧ k' = k ∧ idx < (G.launchAt k).size := by
  unfold stream block
  simp only [List.mem_append, mem_copies, Event.mk.injEq, Op.copy.injEq, List.mem_flatMap, List.mem_map, reduceCtorEq,
    and_false, exists_false, or_false]
  constructor
  · rintro ⟨_, h, rfl, rfl, rfl⟩
    exact ⟨rfl, rfl, h⟩
  · rintro ⟨rfl, rfl, h⟩
    exact ⟨idx, h, rfl, rfl, rfl⟩

theorem mem_stream_run {r r' k k' b : Nat} {i : Instr} : (⟨r', k', .run b i⟩ : Event) ∈ G.stream r k ↔
    r' = r ∧ k' = k ∧ b < (G.launchAt k).blocks ∧ i ∈ (G.launchAt k).program G.world r b := by
  unfold stream block
  simp only [List.mem_append, mem_copies, Event.mk.injEq, reduceCtorEq, and_false, exists_false, false_or,
    List.mem_flatMap, List.mem_range, List.mem_map, Op.run.injEq]
  constructor
  · rintro ⟨_, hb, _, hi, rfl, rfl, rfl, rfl⟩
    exact ⟨rfl, rfl, hb, hi⟩
  · rintro ⟨rfl, rfl, hb, hi⟩
    exact ⟨b, hb, i, hi, rfl, rfl, rfl, rfl⟩

theorem mem_stream_spec {r k : Nat} {e : Event} (h : e ∈ G.stream r k) : e.rank = r ∧ e.launch = k := by
  obtain ⟨r', k', op⟩ := e
  cases op with
  | copy idx =>
    obtain ⟨rfl, rfl, -⟩ := mem_stream_copy.mp h
    exact ⟨rfl, rfl⟩
  | run b i =>
    obtain ⟨rfl, rfl, -⟩ := mem_stream_run.mp h
    exact ⟨rfl, rfl⟩

theorem world_pos (G : Group P A) : 0 < G.world := by
  have := two_le_world G
  omega

theorem isEvent_copy {r k idx : Nat} :
    G.IsEvent ⟨r, k, .copy idx⟩ ↔ r < G.world ∧ idx < (G.launchAt k).size := by
  simp [IsEvent, mem_stream_copy]

theorem isEvent_run {r k b : Nat} {i : Instr} : G.IsEvent ⟨r, k, .run b i⟩ ↔
    r < G.world ∧ b < (G.launchAt k).blocks ∧ i ∈ (G.launchAt k).program G.world r b := by
  simp [IsEvent, mem_stream_run]

theorem mem_of_isEvent {r k b : Nat} {i : Instr} (h : G.IsEvent ⟨r, k, .run b i⟩) :
    i ∈ (G.launchAt k).program G.world r b := (isEvent_run.mp h).2.2

/-- What an event waits for: the order on its rank, and for a wait its signal. -/
def pre (G : Group P A) (e' e : Event) : Prop :=
  e' ∈ G.prior e ∨ ∃ b p i, e.op = .run b (.wait p i) ∧ e' = ⟨i, e.launch, .run b (.signal p e.rank)⟩

theorem prior_copy {r k idx : Nat} {e : Event} :
    e ∈ G.prior ⟨r, k, .copy idx⟩ ↔ ∃ k' < k, e ∈ G.stream r k' := by
  simp [prior]

theorem prior_enter {r k b : Nat} {e : Event} :
    e ∈ G.prior ⟨r, k, .run b (.enter .start)⟩ ↔ (∃ k' < k, e ∈ G.stream r k') ∨ e ∈ G.copies r k := by
  simp [prior]

theorem prior_run {r k b : Nat} {i : Instr} (hi : i ≠ .enter .start) {e : Event} :
    e ∈ G.prior ⟨r, k, .run b i⟩ ↔ ∃ i' ∈ (G.launchAt k).program G.world r b,
      (G.launchAt k).fenced i' i = true ∧ e = ⟨r, k, .run b i'⟩ := by
  have hprior : G.prior ⟨r, k, .run b i⟩ =
      (((G.launchAt k).program G.world r b).filter fun i' => (G.launchAt k).fenced i' i).map
        fun i' => ⟨r, k, .run b i'⟩ := by
    cases i with
    | enter p =>
      cases p with
      | start => exact absurd rfl hi
      | finish => rfl
    | _ => rfl
  rw [hprior]
  simp only [List.mem_map, List.mem_filter, eq_comm (a := e), and_assoc]

theorem pre_of_fenced {r k b : Nat} {i i' : Instr} (hi : i ≠ .enter .start)
    (hi' : i' ∈ (G.launchAt k).program G.world r b) (hf : (G.launchAt k).fenced i' i = true) :
    G.pre ⟨r, k, .run b i'⟩ ⟨r, k, .run b i⟩ := .inl ((prior_run hi).mpr ⟨i', hi', hf, rfl⟩)

theorem enter_pre {r k b : Nat} {i : Instr} (hi : i ≠ .enter .start) :
    G.pre ⟨r, k, .run b (.enter .start)⟩ ⟨r, k, .run b i⟩ := by
  refine pre_of_fenced hi ((Launch.mem_program G.world_pos).mpr trivial) ?_
  cases i with
  | enter p =>
    cases p with
    | start => exact absurd rfl hi
    | finish => rfl
  | _ => rfl

theorem signal_pre {r k b i : Nat} (p : Barrier) :
    G.pre ⟨i, k, .run b (.signal p r)⟩ ⟨r, k, .run b (.wait p i)⟩ := .inr ⟨b, p, i, rfl, rfl⟩

theorem pre_isEvent {e e' : Event} (h : G.pre e' e) (he : G.IsEvent e) : G.IsEvent e' := by
  obtain ⟨r, k, op⟩ := e
  have hearlier : (∃ k' < k, e' ∈ G.stream r k') → G.IsEvent e' := by
    rintro ⟨k', -, hm⟩
    obtain ⟨rfl, rfl⟩ := mem_stream_spec hm
    exact ⟨he.1, hm⟩
  rcases h with h | ⟨b, p, i, hop, rfl⟩
  · cases op with
    | copy idx => exact hearlier (prior_copy.mp h)
    | run b i =>
      by_cases hi : i = .enter .start
      · subst hi
        rcases prior_enter.mp h with h | h
        · exact hearlier h
        · obtain ⟨idx, hidx, rfl⟩ := mem_copies.mp h
          exact isEvent_copy.mpr ⟨he.1, hidx⟩
      · obtain ⟨i', hi', -, rfl⟩ := (prior_run hi).mp h
        obtain ⟨hr, hb, -⟩ := isEvent_run.mp he
        exact isEvent_run.mpr ⟨hr, hb, hi'⟩
  · dsimp only at hop
    subst hop
    obtain ⟨hr, hb, hi⟩ := isEvent_run.mp he
    exact isEvent_run.mpr ⟨(Launch.mem_program G.world_pos).mp hi, hb, (Launch.mem_program G.world_pos).mpr hr⟩

def Instr.phase : Instr → Nat
  | .enter .start => 1
  | .signal .start _ => 2
  | .wait .start _ => 3
  | .update .start | .load .. => 4
  | .store _ => 5
  | .enter .finish => 6
  | .signal .finish _ => 7
  | .wait .finish _ => 8
  | .update .finish | .gather .. => 9

def Op.phase : Op → Nat
  | .copy _ => 0
  | .run _ i => Instr.phase i

/-- Grows along the order of events. -/
def stage (e : Event) : Nat := e.launch * 10 + Op.phase e.op

theorem phase_enter {i : Instr} (h : i ≠ .enter .start) : 1 < Instr.phase i := by
  cases i with
  | enter p =>
    cases p with
    | start => exact absurd rfl h
    | finish => decide
  | signal p j | wait p j | update p =>
    cases p with
    | _ => simp [Instr.phase]
  | _ => simp [Instr.phase]

theorem fenced_phase {l : Launch} {i i' : Instr} (h : l.fenced i i' = true) : Instr.phase i < Instr.phase i' := by
  unfold Launch.fenced at h
  split at h
  case h_2 hne => exact phase_enter hne
  all_goals first
    | cases h; done
    | simp [Instr.phase]

theorem phase_le (op : Op) : Op.phase op ≤ 9 := by
  cases op with
  | copy idx => simp [Op.phase]
  | run b i =>
    cases i with
    | enter p | signal p j | wait p j | update p =>
      cases p with
      | _ => simp [Op.phase, Instr.phase]
    | _ => simp [Op.phase, Instr.phase]

theorem pre_stage {e e' : Event} (h : G.pre e' e) : stage e' < stage e := by
  obtain ⟨r, k, op⟩ := e
  have hearlier : (∃ k' < k, e' ∈ G.stream r k') → stage e' < stage ⟨r, k, op⟩ := by
    rintro ⟨k', hk', hm⟩
    obtain ⟨-, rfl⟩ := mem_stream_spec hm
    have := phase_le e'.op
    unfold stage
    dsimp only
    omega
  rcases h with h | ⟨b, p, i, hop, rfl⟩
  · cases op with
    | copy idx => exact hearlier (prior_copy.mp h)
    | run b i =>
      by_cases hi : i = .enter .start
      · subst hi
        rcases prior_enter.mp h with h | h
        · exact hearlier h
        · obtain ⟨idx, -, rfl⟩ := mem_copies.mp h
          simp [stage, Op.phase, Instr.phase]
      · obtain ⟨i', -, hf, rfl⟩ := (prior_run hi).mp h
        have := fenced_phase hf
        simpa [stage, Op.phase] using this
  · dsimp only at hop
    subst hop
    cases p with
    | _ => simp [stage, Op.phase, Instr.phase]

/-! ## The order across launches and barriers -/

theorem stream_before {e e' : Event} (he : G.IsEvent e) (hr : e'.rank = e.rank) (hlt : e.launch < e'.launch) :
    Relation.TransGen G.pre e e' := by
  obtain ⟨r, k, op⟩ := e'
  dsimp only at hr hlt
  subst hr
  cases op with
  | copy idx => exact .single (.inl (prior_copy.mpr ⟨e.launch, hlt, he.2⟩))
  | run b i =>
    have henter : G.pre e ⟨e.rank, k, .run b (.enter .start)⟩ :=
      .inl (prior_enter.mpr (.inl ⟨e.launch, hlt, he.2⟩))
    by_cases hi : i = .enter .start
    · rw [hi]
      exact .single henter
    · exact .tail (.single henter) (enter_pre hi)

/-- The block of the same index on another rank goes on behind a barrier after this one has signalled. -/
theorem barrier_before {i r k b : Nat} {p : Barrier} {e e' : Event}
    (hin : G.pre e ⟨i, k, .run b (.signal p r)⟩) (hout : G.pre ⟨r, k, .run b (.wait p i)⟩ e') :
    Relation.TransGen G.pre e e' := .tail (.tail (.single hin) (signal_pre p)) hout

theorem copy_before_load {r R k b idx idx' : Nat} (hR : R < G.world)
    (hidx : idx < (G.launchAt k).size) :
    Relation.TransGen G.pre ⟨R, k, .copy idx⟩ ⟨r, k, .run b (.load idx' R)⟩ := by
  have hcopy : G.pre ⟨R, k, .copy idx⟩ ⟨R, k, .run b (.enter .start)⟩ :=
    .inl (prior_enter.mpr (.inr (mem_copies.mpr ⟨idx, hidx, rfl⟩)))
  refine .head hcopy (barrier_before (p := .start) (enter_pre nofun) (pre_of_fenced nofun ?_ rfl))
  exact (Launch.mem_program G.world_pos).mpr hR

theorem load_before_copy {r R k k' b idx target idx' : Nat} (he : G.IsEvent ⟨r, k, .run b (.load idx target)⟩) (hlt : k < k') :
    Relation.TransGen G.pre ⟨r, k, .run b (.load idx target)⟩ ⟨R, k', .copy idx'⟩ := by
  obtain ⟨hr, hb, hi⟩ := isEvent_run.mp he
  have hload : G.pre ⟨r, k, .run b (.load idx target)⟩ ⟨r, k, .run b (.enter .finish)⟩ := pre_of_fenced nofun hi rfl
  refine .head hload (barrier_before (r := R) (p := .finish) (pre_of_fenced nofun ?_ rfl) ?_)
  · exact (Launch.mem_program G.world_pos).mpr trivial
  · refine .inl (prior_copy.mpr ⟨k, hlt, mem_stream_run.mpr ⟨rfl, rfl, hb, ?_⟩⟩)
    exact (Launch.mem_program G.world_pos).mpr hr

theorem store_before_gather {r R k b idx idx' : Nat} (he : G.IsEvent ⟨R, k, .run b (.store idx)⟩) :
    Relation.TransGen G.pre ⟨R, k, .run b (.store idx)⟩ ⟨r, k, .run b (.gather R idx')⟩ := by
  obtain ⟨hR, hb, hi⟩ := isEvent_run.mp he
  have hstore : G.pre ⟨R, k, .run b (.store idx)⟩ ⟨R, k, .run b (.enter .finish)⟩ := pre_of_fenced nofun hi rfl
  refine .head hstore (barrier_before (p := .finish) (pre_of_fenced nofun ?_ rfl) (pre_of_fenced nofun ?_ rfl))
  · exact (Launch.mem_program G.world_pos).mpr trivial
  · exact (Launch.mem_program G.world_pos).mpr hR

theorem gather_before_store {r R k k' b b' source idx idx' : Nat} (he : G.IsEvent ⟨r, k, .run b (.gather source idx)⟩) (hlt : k < k') :
    Relation.TransGen G.pre ⟨r, k, .run b (.gather source idx)⟩ ⟨R, k', .run b' (.store idx')⟩ := by
  have hgather : G.pre ⟨r, k, .run b (.gather source idx)⟩ ⟨r, k', .run b' (.enter .start)⟩ :=
    .inl (prior_enter.mpr (.inl ⟨k, hlt, he.2⟩))
  refine .head hgather (barrier_before (p := .start) (enter_pre nofun) (pre_of_fenced nofun ?_ rfl))
  exact (Launch.mem_program G.world_pos).mpr he.1

/-! ## The counters -/

/-- The launches before `k` that had the block. -/
def uses (G : Group P A) (b k : Nat) : Nat := Nat.count (fun j => b < (G.launchAt j).blocks) k

def Barrier.tick : Barrier → Nat
  | .start => 1
  | .finish => 2

/-- The flag of a barrier of launch `k`, not wrapped. -/
def due (G : Group P A) (b : Nat) (p : Barrier) (k : Nat) : Nat := 2 * G.uses b k + Barrier.tick p

theorem one_le_tick (p : Barrier) : 1 ≤ Barrier.tick p := by
  cases p with
  | _ => decide

theorem tick_le_two (p : Barrier) : Barrier.tick p ≤ 2 := by
  cases p with
  | _ => decide

theorem tick_inj {p p' : Barrier} (h : Barrier.tick p = Barrier.tick p') : p = p' := by
  cases p with
  | _ => cases p' with
    | _ => first | rfl | cases h

theorem due_lt_of_lt {b k k' : Nat} (hb : b < (G.launchAt k).blocks) (hlt : k < k') (p p' : Barrier) :
    G.due b p k < G.due b p' k' := by
  have huses : G.uses b k < G.uses b k' := Nat.count_strict_mono hb hlt
  have := tick_le_two p
  have := one_le_tick p'
  unfold due
  omega

/-- Barriers of the launches that had the block, in the order of their flags. -/
theorem order_of_due {b k k' : Nat} {p p' : Barrier} (hb' : b < (G.launchAt k').blocks)
    (hlt : G.due b p k < G.due b p' k') : k < k' ∨ k = k' ∧ p = .start ∧ p' = .finish := by
  rcases Nat.lt_trichotomy k k' with h | rfl | h
  · exact .inl h
  · refine .inr ⟨rfl, ?_⟩
    unfold due at hlt
    cases p with
    | start =>
      cases p' with
      | start => omega
      | finish => exact ⟨rfl, rfl⟩
    | finish =>
      have := tick_le_two p'
      have : Barrier.tick .finish = 2 := rfl
      omega
  · have := due_lt_of_lt hb' h p' p
    omega

theorem due_inj {b k k' : Nat} {p p' : Barrier} (hb : b < (G.launchAt k).blocks) (hb' : b < (G.launchAt k').blocks)
    (heq : G.due b p k = G.due b p' k') : k = k' ∧ p = p' := by
  rcases Nat.lt_trichotomy k k' with h | rfl | h
  · have := due_lt_of_lt hb h p p'
    omega
  · refine ⟨rfl, tick_inj ?_⟩
    unfold due at heq
    omega
  · have := due_lt_of_lt hb' h p' p
    omega

theorem exists_use {b : Nat} : ∀ {k : Nat}, 0 < G.uses b k →
    ∃ j < k, b < (G.launchAt j).blocks ∧ G.uses b j + 1 = G.uses b k
  | 0, h => by simp [uses] at h
  | k + 1, h => by
    unfold uses at *
    rw [Nat.count_succ] at *
    by_cases hb : b < (G.launchAt k).blocks
    · simp only [hb, if_true]
      exact ⟨k, Nat.lt_succ_self k, hb, rfl⟩
    · simp only [hb, if_false, Nat.add_zero] at *
      obtain ⟨j, hj, hbj, huses⟩ := exists_use h
      exact ⟨j, by omega, hbj, huses⟩

/-! ## The barrier invariant -/

/-- No block enters a barrier with its counter at the end of its range. -/
def noWrap (s : Device P) (e : Event) : Bool :=
  match e.op with
  | .run b (.enter _) => s.flag (e.rank, b) + 1 < flagRange
  | _ => true

/-- The flags of every rank count the launches that had the block. -/
structure Counted (G : Group P A) (s : Device P) : Prop where
  causal : Causal G.pre s.hist
  events : ∀ e ∈ s.hist, G.IsEvent e
  own : ∀ r k b p, (⟨r, k, .run b (.enter p)⟩ : Event) ∈ s.hist → s.own p (r, k, b) = G.due b p k
  flag : ∀ r b k p, b < (G.launchAt k).blocks →
    ((⟨r, k, .run b (.update p)⟩ : Event) ∈ s.hist ↔ r < G.world ∧ G.due b p k ≤ s.flag (r, b))
  peer : ∀ r b k p i, b < (G.launchAt k).blocks →
    ((⟨r, k, .run b (.signal p i)⟩ : Event) ∈ s.hist ↔ r < G.world ∧ i < G.world ∧ G.due b p k ≤ s.peer p (i, b, r))

theorem counted_initial (mem : Loc → P) (regs : Nat × Nat × Nat × Nat → P) :
    G.Counted { mem := mem, regs := regs } := by
  refine ⟨.nil, nofun, nofun, fun r b k p _ => ?_, fun r b k p i _ => ?_⟩
  · have := one_le_tick p
    simp [due]
    omega
  · have := one_le_tick p
    simp [due]
    omega

theorem fenced_enter_wait (l : Launch) (p : Barrier) (i : Nat) : l.fenced (.enter p) (.wait p i) = true := by
  cases p with
  | _ => rfl

section
variable {s : Device P} (h : G.Counted s)
include h

theorem Counted.own_of_ready {r k b : Nat} {p : Barrier} {i : Instr}
    (hready : ∀ e' ∈ G.prior ⟨r, k, .run b i⟩, e' ∈ s.hist) (hi : i ≠ .enter .start)
    (hf : (G.launchAt k).fenced (.enter p) i = true) : s.own p (r, k, b) = G.due b p k := by
  refine h.own r k b p (hready _ ((prior_run hi).mpr ⟨.enter p, ?_, hf, rfl⟩))
  exact (Launch.mem_program G.world_pos).mpr trivial

/-- An enabled event waits for nothing any more, its signal included. -/
theorem Counted.ready {e : Event} (he : G.IsEvent e) (hprior : ∀ e' ∈ G.prior e, e' ∈ s.hist)
    (hen : enabled s e = true) : ∀ e', G.pre e' e → e' ∈ s.hist := by
  rintro e' (hpre | ⟨b, p, i, hop, rfl⟩)
  · exact hprior e' hpre
  · obtain ⟨r, k, op⟩ := e
    dsimp only at hop
    subst hop
    obtain ⟨hr, hb, hi⟩ := isEvent_run.mp he
    have hown := h.own_of_ready hprior nofun (fenced_enter_wait _ p i)
    simp only [enabled, hown, Bool.not_eq_true', decide_eq_false_iff_not, Nat.not_lt] at hen
    exact (h.peer i b k p r hb).mpr ⟨(Launch.mem_program G.world_pos).mp hi, hr, hen⟩

theorem Counted.enabled_of_ready {e : Event} (he : G.IsEvent e) (hready : ∀ e', G.pre e' e → e' ∈ s.hist) :
    enabled s e = true := by
  obtain ⟨r, k, op⟩ := e
  unfold enabled
  split
  · rename_i b p i hop
    dsimp only at hop
    subst hop
    obtain ⟨hr, hb, hi⟩ := isEvent_run.mp he
    have hown := h.own_of_ready (fun e' he' => hready e' (.inl he')) nofun (fenced_enter_wait _ p i)
    have hsig := hready ⟨i, k, .run b (.signal p r)⟩ (signal_pre p)
    have := ((h.peer i b k p r hb).mp hsig).2.2
    simp only [hown, Bool.not_eq_true', decide_eq_false_iff_not, Nat.not_lt]
    exact this
  · rfl

theorem Counted.flag_of_enter {r k b : Nat} {p : Barrier} (he : G.IsEvent ⟨r, k, .run b (.enter p)⟩)
    (hnew : (⟨r, k, .run b (.enter p)⟩ : Event) ∉ s.hist)
    (hready : ∀ e', G.pre e' ⟨r, k, .run b (.enter p)⟩ → e' ∈ s.hist) : s.flag (r, b) + 1 = G.due b p k := by
  obtain ⟨hr, hb, -⟩ := isEvent_run.mp he
  have hprog : ∀ i, i ∈ (G.launchAt k).program G.world r b ↔ _ := fun i => Launch.mem_program G.world_pos
  -- the update of this barrier is still to come
  have hupper : s.flag (r, b) < G.due b p k := by
    refine Nat.lt_of_not_le fun hle => hnew ?_
    have hupd := (h.flag r b k p hb).mpr ⟨hr, hle⟩
    cases p with
    | start => exact h.causal.mem_of_pre (enter_pre (i := .update .start) nofun) hupd
    | finish => exact h.causal.mem_of_pre (pre_of_fenced (i := .update .finish) nofun ((hprog _).mpr trivial) rfl) hupd
  cases p with
  | start =>
    by_cases hzero : G.uses b k = 0
    · simp only [due, hzero, Barrier.tick] at *
      omega
    · obtain ⟨j, hj, hbj, huses⟩ := exists_use (Nat.pos_of_ne_zero hzero)
      have hupd : (⟨r, j, .run b (.update .finish)⟩ : Event) ∈ s.hist := by
        refine hready _ (.inl (prior_enter.mpr (.inl ⟨j, hj, mem_stream_run.mpr ⟨rfl, rfl, hbj, ?_⟩⟩)))
        exact (Launch.mem_program G.world_pos).mpr trivial
      have hlower := ((h.flag r b j .finish hbj).mp hupd).2
      simp only [due, Barrier.tick] at *
      omega
  | finish =>
    have hupd : (⟨r, k, .run b (.update .start)⟩ : Event) ∈ s.hist :=
      hready _ (pre_of_fenced nofun ((hprog _).mpr trivial) rfl)
    have hlower := ((h.flag r b k .start hb).mp hupd).2
    simp only [due, Barrier.tick] at *
    omega

end

variable [AddCommMonoid A]

theorem step_spec {s s' : Device P} {e : Event} (h : G.step s e = some s') :
    G.IsEvent e ∧ e ∉ s.hist ∧ (∀ e' ∈ G.prior e, e' ∈ s.hist) ∧ enabled s e = true ∧ s' = G.perform s e := by
  unfold step at h
  split at h
  · rename_i hen
    cases h
    exact ⟨⟨hen.1, hen.2.1⟩, hen.2.2.1, hen.2.2.2.1, hen.2.2.2.2, rfl⟩
  · cases h

theorem perform_store (s : Device P) (r k b idx : Nat) : ∃ mem out, G.perform s ⟨r, k, .run b (.store idx)⟩ =
    { s with mem := mem, out := out, hist := ⟨r, k, .run b (.store idx)⟩ :: s.hist } := by
  unfold perform
  dsimp only
  split
  · exact ⟨_, _, rfl⟩
  · exact ⟨_, _, rfl⟩

theorem perform_hist (s : Device P) (e : Event) : (G.perform s e).hist = e :: s.hist := by
  obtain ⟨r, k, op⟩ := e
  cases op with
  | copy idx => rfl
  | run b i =>
    cases i with
    | store idx =>
      obtain ⟨mem, out, hs⟩ := perform_store (G := G) s r k b idx
      rw [hs]
    | _ => rfl

theorem perform_own (s : Device P) (e : Event) : (G.perform s e).own =
    match e.op with
    | .run b (.enter p) => Function.update s.own p
      (Function.update (s.own p) (e.rank, e.launch, b) ((s.flag (e.rank, b) + 1) % flagRange))
    | _ => s.own := by
  obtain ⟨r, k, op⟩ := e
  cases op with
  | copy idx => rfl
  | run b i =>
    cases i with
    | store idx =>
      obtain ⟨mem, out, hs⟩ := perform_store (G := G) s r k b idx
      rw [hs]
    | _ => rfl

theorem perform_flag (s : Device P) (e : Event) : (G.perform s e).flag =
    match e.op with
    | .run b (.update p) => Function.update s.flag (e.rank, b) (s.own p (e.rank, e.launch, b))
    | _ => s.flag := by
  obtain ⟨r, k, op⟩ := e
  cases op with
  | copy idx => rfl
  | run b i =>
    cases i with
    | store idx =>
      obtain ⟨mem, out, hs⟩ := perform_store (G := G) s r k b idx
      rw [hs]
    | _ => rfl

theorem perform_peer (s : Device P) (e : Event) : (G.perform s e).peer =
    match e.op with
    | .run b (.signal p i) => Function.update s.peer p
      (Function.update (s.peer p) (i, b, e.rank) (s.own p (e.rank, e.launch, b)))
    | _ => s.peer := by
  obtain ⟨r, k, op⟩ := e
  cases op with
  | copy idx => rfl
  | run b i =>
    cases i with
    | store idx =>
      obtain ⟨mem, out, hs⟩ := perform_store (G := G) s r k b idx
      rw [hs]
    | _ => rfl

section
variable {s : Device P} (h : G.Counted s)
include h

theorem Counted.own_step {e : Event} (he : G.IsEvent e) (hnew : e ∉ s.hist)
    (hready : ∀ e', G.pre e' e → e' ∈ s.hist) (hnw : noWrap s e = true) (r k b : Nat) (p : Barrier)
    (hm : (⟨r, k, .run b (.enter p)⟩ : Event) ∈ e :: s.hist) : (G.perform s e).own p (r, k, b) = G.due b p k := by
  obtain ⟨r₀, k₀, op⟩ := e
  rw [perform_own]
  cases op with
  | copy idx => exact h.own r k b p (by simpa using hm)
  | run b₀ i =>
    cases i with
    | enter p₀ =>
      have hflag := h.flag_of_enter he hnew hready
      simp only [noWrap, decide_eq_true_eq] at hnw
      dsimp only
      by_cases hp : p = p₀
      · subst hp
        rw [Function.update_self, Function.update_apply]
        split
        · rename_i hkey
          cases hkey
          rw [hflag] at hnw ⊢
          exact Nat.mod_eq_of_lt hnw
        · rename_i hkey
          refine h.own r k b p ((List.mem_cons.mp hm).resolve_left fun heq => hkey ?_)
          cases heq
          rfl
      · rw [Function.update_of_ne hp]
        refine h.own r k b p ((List.mem_cons.mp hm).resolve_left fun heq => hp ?_)
        cases heq
        rfl
    | _ => exact h.own r k b p (by simpa using hm)

theorem Counted.flag_step {e : Event} (he : G.IsEvent e) (hnew : e ∉ s.hist)
    (hready : ∀ e', G.pre e' e → e' ∈ s.hist) (r b k : Nat) (p : Barrier) (hb : b < (G.launchAt k).blocks) :
    (⟨r, k, .run b (.update p)⟩ : Event) ∈ e :: s.hist ↔
      r < G.world ∧ G.due b p k ≤ (G.perform s e).flag (r, b) := by
  obtain ⟨r₀, k₀, op⟩ := e
  rw [perform_flag]
  have hprog : ∀ {k b p}, .update p ∈ (G.launchAt k).program G.world r b :=
    (Launch.mem_program G.world_pos).mpr trivial
  cases op with
  | copy idx => simpa using h.flag r b k p hb
  | run b₀ i =>
    cases i with
    | update p₀ =>
      dsimp only
      by_cases hkey : (r, b) = (r₀, b₀)
      · cases hkey
        have hr := he.1
        have hown : s.own p₀ (r, k₀, b) = G.due b p₀ k₀ := by
          refine h.own_of_ready (fun e' he' => hready e' (.inl he')) nofun ?_
          cases p₀ with
          | _ => rfl
        rw [Function.update_self, hown]
        -- the updates of this block, one barrier after another
        have hlt : ∀ j j' : {j : Nat × Barrier // b < (G.launchAt j.1).blocks},
            G.due b j.1.2 j.1.1 < G.due b j'.1.2 j'.1.1 →
              Relation.TransGen G.pre ⟨r, j.1.1, .run b (.update j.1.2)⟩ ⟨r, j'.1.1, .run b (.update j'.1.2)⟩ := by
          rintro ⟨⟨j, q⟩, hj⟩ ⟨⟨j', q'⟩, hj'⟩ hlt
          rcases order_of_due hj' hlt with hlt | ⟨rfl, rfl, rfl⟩
          · exact stream_before (isEvent_run.mpr ⟨hr, hj, hprog⟩) rfl hlt
          · refine .tail (.single (pre_of_fenced (i := .enter .finish) nofun hprog rfl)) (pre_of_fenced nofun ?_ rfl)
            exact (Launch.mem_program G.world_pos).mpr trivial
        have heq : ∀ j j' : {j : Nat × Barrier // b < (G.launchAt j.1).blocks},
            G.due b j.1.2 j.1.1 = G.due b j'.1.2 j'.1.1 →
              (⟨r, j.1.1, .run b (.update j.1.2)⟩ : Event) = ⟨r, j'.1.1, .run b (.update j'.1.2)⟩ := by
          rintro ⟨⟨j, q⟩, hj⟩ ⟨⟨j', q'⟩, hj'⟩ heq
          obtain ⟨rfl, rfl⟩ := due_inj hj hj' heq
          rfl
        have hstamp := h.causal.stamped_cons hlt heq (j := ⟨(k₀, p₀), (isEvent_run.mp he).2.1⟩) hnew hready ⟨(k, p), hb⟩
        exact hstamp.trans (iff_and_self.mpr fun _ => hr)
      · have hne : (⟨r, k, .run b (.update p)⟩ : Event) ≠ ⟨r₀, k₀, .run b₀ (.update p₀)⟩ := fun heq => by
          cases heq
          exact hkey rfl
        rw [Function.update_of_ne hkey, List.mem_cons]
        simp only [hne, false_or]
        exact h.flag r b k p hb
    | _ => simpa using h.flag r b k p hb

theorem Counted.peer_step {e : Event} (he : G.IsEvent e) (hnew : e ∉ s.hist)
    (hready : ∀ e', G.pre e' e → e' ∈ s.hist) (r b k : Nat) (p : Barrier) (i : Nat) (hb : b < (G.launchAt k).blocks) :
    (⟨r, k, .run b (.signal p i)⟩ : Event) ∈ e :: s.hist ↔
      r < G.world ∧ i < G.world ∧ G.due b p k ≤ (G.perform s e).peer p (i, b, r) := by
  obtain ⟨r₀, k₀, op⟩ := e
  rw [perform_peer]
  cases op with
  | copy idx => simpa using h.peer r b k p i hb
  | run b₀ instr =>
    cases instr with
    | signal p₀ i₀ =>
      dsimp only
      by_cases hp : p = p₀
      · subst hp
        rw [Function.update_self]
        by_cases hkey : (i, b, r) = (i₀, b₀, r₀)
        · cases hkey
          have hr := he.1
          obtain ⟨-, hb₀, hi⟩ := isEvent_run.mp he
          rw [Launch.mem_program G.world_pos] at hi
          have hown : s.own p (r, k₀, b) = G.due b p k₀ := by
            refine h.own_of_ready (fun e' he' => hready e' (.inl he')) nofun ?_
            cases p with
            | _ => rfl
          rw [Function.update_self, hown]
          -- the signals of this block to this rank, one launch after another
          have hlt : ∀ j j' : {j : Nat // b < (G.launchAt j).blocks}, G.due b p j.1 < G.due b p j'.1 →
              Relation.TransGen G.pre ⟨r, j.1, .run b (.signal p i)⟩ ⟨r, j'.1, .run b (.signal p i)⟩ := by
            rintro ⟨j, hj⟩ ⟨j', hj'⟩ hlt
            rcases order_of_due hj' hlt with hlt | ⟨-, rfl, hp⟩
            · exact stream_before (isEvent_run.mpr ⟨hr, hj, (Launch.mem_program G.world_pos).mpr hi⟩) rfl hlt
            · cases hp
          have heq : ∀ j j' : {j : Nat // b < (G.launchAt j).blocks}, G.due b p j.1 = G.due b p j'.1 →
              (⟨r, j.1, .run b (.signal p i)⟩ : Event) = ⟨r, j'.1, .run b (.signal p i)⟩ := by
            rintro ⟨j, hj⟩ ⟨j', hj'⟩ heq
            obtain ⟨rfl, -⟩ := due_inj hj hj' heq
            rfl
          have hstamp := h.causal.stamped_cons hlt heq (j := ⟨k₀, hb₀⟩) hnew hready ⟨k, hb⟩
          exact hstamp.trans ⟨fun hle => ⟨hr, hi, hle⟩, fun h => h.2.2⟩
        · have hne : (⟨r, k, .run b (.signal p i)⟩ : Event) ≠ ⟨r₀, k₀, .run b₀ (.signal p i₀)⟩ := fun heq => by
            cases heq
            exact hkey rfl
          rw [Function.update_of_ne hkey, List.mem_cons]
          simp only [hne, false_or]
          exact h.peer r b k p i hb
      · have hne : (⟨r, k, .run b (.signal p i)⟩ : Event) ≠ ⟨r₀, k₀, .run b₀ (.signal p₀ i₀)⟩ := fun heq => by
          cases heq
          exact hp rfl
        rw [Function.update_of_ne hp, List.mem_cons]
        simp only [hne, false_or]
        exact h.peer r b k p i hb
    | _ => simpa using h.peer r b k p i hb

theorem Counted.step {s' : Device P} {e : Event} (hnw : noWrap s e = true) (hstep : G.step s e = some s') :
    G.Counted s' := by
  obtain ⟨he, hnew, hprior, hen, rfl⟩ := step_spec hstep
  have hready := h.ready he hprior hen
  refine ⟨?_, ?_, ?_, ?_, ?_⟩
  · rw [perform_hist]
    exact .cons h.causal hnew hready
  · rw [perform_hist]
    intro e' he'
    rcases List.mem_cons.mp he' with rfl | he'
    · exact he
    · exact h.events e' he'
  · rw [perform_hist]
    exact h.own_step he hnew hready hnw
  · rw [perform_hist]
    exact h.flag_step he hnew hready
  · rw [perform_hist]
    exact h.peer_step he hnew hready

end

end

end Group

end VllmHcu.CustomAr
