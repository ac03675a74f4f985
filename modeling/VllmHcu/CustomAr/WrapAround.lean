import Mathlib.Algebra.Group.Nat.Defs
import VllmHcu.CustomAr.AllReduceSound

/-!
# A counter that wraps

Two ranks sum one packed element at a time. The second barrier of call `2^31 - 1`
has the flag 0, which no flag is below: the first rank leaves it alone and copies
its next input over the one that the second rank has still to read.
-/

namespace VllmHcu.CustomAr

/-- Two fully connected ranks with the default sizes, and calls of one packed element. -/
def pair (input : Nat → Nat → Nat) : Group Nat Nat where
  comm := ⟨false, 2, true, 8192 * 1024, none⟩
  upcast := id
  downcast := id
  calls := fun k => ⟨.float32, 4, true, 16, 0, fun _ => 0, fun r _ => input k r⟩
  world_mem := by decide
  algo_valid := ⟨none, rfl⟩

section
variable {input : Nat → Nat → Nat}

theorem pair_accepts (k : Nat) : (pair input).comm.shouldCustomAr ((pair input).calls k) = true := by
  simp [pair, CustomAllreduce.shouldCustomAr, isWeakContiguous, Dtype.elementSize]

theorem pair_launch (k : Nat) : (pair input).launchAt k = ⟨.oneStage, 1, 512, 1⟩ := by
  have hlaunch : (pair input).comm.allReduce ((pair input).calls k) = .ok (some ⟨.oneStage, 1, 512, 1⟩) := by
    simp only [pair, CustomAllreduce.allReduce, CustomAllreduce.allreduce, if_true]
    rw [launchWith_spec rfl (by decide) (by decide)]
    simp [CustomAllreduce.reduceCase, Dtype.packed, Dtype.elementSize, cdiv, defaultThreads, defaultBlockLimit]
  unfold Group.launchAt
  rw [hlaunch]
  rfl

theorem pair_program {k r : Nat} {i : Instr} : i ∈ ((pair input).launchAt k).program (pair input).world r 0 ↔
    match i with
    | .enter _ | .update _ => True
    | .signal _ i | .wait _ i => i < 2
    | .load idx R => idx = 0 ∧ R < 2
    | .store idx => idx = 0
    | .gather _ _ => False := by
  have hred : ∀ idx, idx ∈ ((pair input).launchAt k).reduced (pair input).world r 0 ↔ idx = 0 := by
    intro idx
    rw [pair_launch]
    simp only [Launch.reduced]
    refine (mem_gridElems (by decide) (by decide)).trans ⟨fun h => by omega, fun h => ?_⟩
    subst h
    decide
  rw [Launch.mem_program (pair input).world_pos]
  cases i with
  | load idx R => exact and_congr_left' (hred idx)
  | store idx => exact hred idx
  | gather R idx => simp [pair_launch]
  | _ => exact Iff.rfl

theorem pair_due (p : Barrier) (k : Nat) : (pair input).due 0 p k = 2 * k + Group.Barrier.tick p := by
  have huses : (pair input).uses 0 k = k := by
    unfold Group.uses
    induction k with
    | zero => rfl
    | succ k ih => rw [Nat.count_succ, ih, pair_launch, if_pos (by decide)]
  rw [Group.due, huses]

theorem pair_block {r k b : Nat} {i : Instr} (h : (pair input).IsEvent ⟨r, k, .run b i⟩) : b = 0 := by
  have := (Group.isEvent_run.mp h).2.1
  rw [pair_launch] at this
  dsimp only at this
  omega

theorem allreduce_sums_pair : ∃ es s, runFrom (pair fun _ r => r + 1).step { mem := fun _ => 0, regs := fun _ => 0 } es =
    some s ∧ s.out (1, 0, 0) = some 3 ∧ s.hist.Nodup := by
  obtain ⟨es, s, hrun, hnw, -, hhist⟩ := Group.exists_run (G := pair fun _ r => r + 1) (fun _ => 0) (fun _ => 0)
    (Q := fun e => e.launch < 1 ∧ e.rank < 2 ∧ e ∈ (pair fun _ r => r + 1).stream e.rank e.launch) (K := 1)
    (fun e e' hpre h => by
      obtain ⟨hr, hm⟩ := Group.pre_isEvent hpre ⟨h.2.1, h.2.2⟩
      exact ⟨Nat.lt_of_le_of_lt (Group.pre_launch hpre) h.1, hr, hm⟩)
    (fun e h => ⟨h.2.1, h.2.2⟩) (fun e h => h.1) (fun r k b p h => by
      obtain rfl := pair_block ⟨h.2.1, h.2.2⟩
      have := h.1
      have := Group.tick_le_two p
      rw [pair_due, flagRange]
      dsimp only at *
      omega)
  obtain ⟨hout, hnodup, -⟩ := allreduce_sums (pair fun _ r => r + 1) pair_accepts (fun _ => 0) (fun _ => 0) es s hrun hnw
  refine ⟨es, s, hrun, (hout 1 (by decide) 0 (fun e he => ?_) 0 (by decide)).1, hnodup⟩
  obtain ⟨hr, hk⟩ := Group.mem_stream_spec he
  refine (hhist e).mpr ⟨by omega, by omega, ?_⟩
  rw [hr, hk]
  exact he

end

/-! ## The last call before the wrap -/

/-- Call `n + 1` is the only one with an input other than 0. -/
def late (n k _ : Nat) : Nat := if k = n + 1 then 1 else 0

section
variable {n : Nat}

/-- An access of the block in call `n`. -/
def access (n r : Nat) (i : Instr) : Event := ⟨r, n, .run 0 i⟩

/-- The block has performed its accesses up to a phase. -/
def DoneTo (n : Nat) (s : Device Nat) (r m : Nat) : Prop :=
  ∀ i ∈ ((pair (late n)).launchAt n).program (pair (late n)).world r 0, Group.Instr.phase i ≤ m → access n r i ∈ s.hist

/-- The accesses of the next phase, in any order. A wait with the flag 0 is not held back. -/
theorem run_phase {r m : Nat} (hr : r < 2) (hm : 1 ≤ m) : ∀ {is : List Instr} {s : Device Nat}, DoneTo n s r m →
    (∀ i ∈ is, i ∈ ((pair (late n)).launchAt n).program (pair (late n)).world r 0 ∧ Group.Instr.phase i = m + 1) →
    is.Nodup → (∀ i ∈ is, access n r i ∉ s.hist) → (∀ i ∈ is, ∀ p j, i = .wait p j → s.own p (r, n, 0) = 0) →
    runFrom (pair (late n)).step s (is.map (access n r)) =
      some ((is.map (access n r)).foldl (pair (late n)).perform s)
  | [], _, _, _, _, _, _ => rfl
  | i :: is, s, hdone, his, hnd, hnew, hen => by
    obtain ⟨hi, hphase⟩ := his i List.mem_cons_self
    have hne : i ≠ .enter .start := by
      rintro rfl
      simp [Group.Instr.phase] at hphase
      omega
    have hstep : (pair (late n)).step s (access n r i) = some ((pair (late n)).perform s (access n r i)) := by
      refine if_pos ⟨hr, Group.mem_stream_run.mpr ⟨rfl, rfl, by rw [pair_launch]; decide, hi⟩, hnew i List.mem_cons_self, ?_, ?_⟩
      · intro e' he'
        obtain ⟨i', hi', hf, rfl⟩ := (Group.prior_run hne).mp he'
        have := Group.fenced_phase hf
        exact hdone i' hi' (by omega)
      · unfold Group.enabled
        split
        · rename_i b p j hop
          cases hop
          simp [hen (.wait p j) List.mem_cons_self p j rfl, access]
        · rfl
    rw [List.map_cons, runFrom, hstep, List.foldl_cons]
    refine run_phase hr hm (fun i' hi' hle => ?_) (fun i' hi' => his i' (List.mem_cons_of_mem i hi'))
      (List.nodup_cons.mp hnd).2 (fun i' hi' => ?_) fun i' hi' p j hw => ?_
    · rw [Group.perform_hist]
      exact List.mem_cons_of_mem _ (hdone i' hi' hle)
    · rw [Group.perform_hist, List.mem_cons, not_or]
      refine ⟨fun heq => ?_, hnew i' (List.mem_cons_of_mem i hi')⟩
      cases heq
      exact (List.nodup_cons.mp hnd).1 hi'
    · -- an entry is not in the phase of a wait
      have hphase' := (his i' (List.mem_cons_of_mem i hi')).2
      have hown := hen i' (List.mem_cons_of_mem i hi') p j hw
      rw [Group.perform_own]
      subst hw
      cases i with
      | enter q =>
        cases q with
        | _ => cases p with
          | _ =>
            simp only [Group.Instr.phase] at hphase hphase'
            omega
      | _ => exact hown

theorem foldl_hist {G : Group Nat Nat} (es : List Event) (s : Device Nat) :
    (es.foldl G.perform s).hist = es.reverse ++ s.hist := by
  induction es generalizing s with
  | nil => rfl
  | cons e es ih =>
    rw [List.foldl_cons, ih, Group.perform_hist, List.reverse_cons, List.append_assoc]
    rfl

/-- The block has performed its accesses up to a phase and none behind it. -/
structure At (n : Nat) (s : Device Nat) (r m : Nat) : Prop where
  done : DoneTo n s r m
  later : ∀ i, m < Group.Instr.phase i → access n r i ∉ s.hist

theorem At.next {s : Device Nat} {r m : Nat} {is : List Instr} (h : At n s r m) (hr : r < 2) (hm : 1 ≤ m)
    (his : ∀ i, i ∈ is ↔ i ∈ ((pair (late n)).launchAt n).program (pair (late n)).world r 0 ∧
      Group.Instr.phase i = m + 1)
    (hnd : is.Nodup) (hen : ∀ i ∈ is, ∀ p j, i = .wait p j → s.own p (r, n, 0) = 0) :
    runFrom (pair (late n)).step s (is.map (access n r)) =
        some ((is.map (access n r)).foldl (pair (late n)).perform s) ∧
      At n ((is.map (access n r)).foldl (pair (late n)).perform s) r (m + 1) := by
  refine ⟨run_phase hr hm h.done (fun i hi => (his i).mp hi) hnd (fun i hi => ?_) hen, fun i hi hle => ?_, fun i hlt => ?_⟩
  · have := ((his i).mp hi).2
    exact h.later i (by omega)
  · rw [foldl_hist, List.mem_append]
    rcases Nat.lt_or_ge (Group.Instr.phase i) (m + 1) with hlt | hge
    · exact .inr (h.done i hi (by omega))
    · exact .inl (List.mem_reverse.mpr (List.mem_map_of_mem ((his i).mpr ⟨hi, by omega⟩)))
  · rw [foldl_hist, List.mem_append, List.mem_reverse, List.mem_map, not_or]
    refine ⟨?_, h.later i (by omega)⟩
    rintro ⟨i', hi', heq⟩
    cases heq
    have := ((his i).mp hi').2
    omega

/-- The accesses of a phase behind the loads. -/
def phaseInstrs : Nat → List Instr
  | 5 => [.store 0]
  | 6 => [.enter .finish]
  | 7 => [.signal .finish 0, .signal .finish 1]
  | 8 => [.wait .finish 0, .wait .finish 1]
  | 9 => [.update .finish]
  | _ => []

theorem mem_phaseInstrs {m r : Nat} (hm : 5 ≤ m) (hm' : m ≤ 9) (i : Instr) : i ∈ phaseInstrs m ↔
    i ∈ ((pair (late n)).launchAt n).program (pair (late n)).world r 0 ∧ Group.Instr.phase i = m := by
  rw [pair_program]
  have hcases : m = 5 ∨ m = 6 ∨ m = 7 ∨ m = 8 ∨ m = 9 := by omega
  rcases hcases with rfl | rfl | rfl | rfl | rfl
  all_goals
    cases i with
    | enter p | update p =>
      cases p with
      | _ => simp [phaseInstrs, Group.Instr.phase]
    | signal p j | wait p j =>
      cases p with
      | _ =>
        simp [phaseInstrs, Group.Instr.phase]
        try omega
    | _ => simp [phaseInstrs, Group.Instr.phase]

theorem nodup_phaseInstrs (m : Nat) : (phaseInstrs m).Nodup := by
  unfold phaseInstrs
  split
  all_goals simp

/-- With the flag 0 a block leaves its second barrier whatever the other rank does. -/
theorem leave_alone {s : Device Nat} {r : Nat} (hr : r < 2) (hat : At n s r 5) (hflag : s.flag (r, 0) + 1 = flagRange) :
    ∃ es s', runFrom (pair (late n)).step s es = some s' ∧ At n s' r 9 ∧ s'.mem = s.mem ∧ s'.regs = s.regs ∧
      s'.out = s.out ∧ (∀ r', r' ≠ r → s'.flag (r', 0) = s.flag (r', 0)) ∧
      (∀ e ∈ s.hist, e ∈ s'.hist) ∧ ∀ e ∈ s'.hist, e ∈ s.hist ∨ e.rank = r ∧ e.launch = n := by
  obtain ⟨h₁, hat₁⟩ := hat.next hr (by omega) (mem_phaseInstrs (by omega) (by omega)) (nodup_phaseInstrs 6) (by simp [phaseInstrs])
  obtain ⟨h₂, hat₂⟩ := hat₁.next hr (by omega) (mem_phaseInstrs (by omega) (by omega)) (nodup_phaseInstrs 7) (by simp [phaseInstrs])
  obtain ⟨h₃, hat₃⟩ := hat₂.next hr (by omega) (mem_phaseInstrs (by omega) (by omega)) (nodup_phaseInstrs 8) (by
    intro i hi p j hw
    simp only [phaseInstrs, List.mem_cons, List.not_mem_nil, or_false] at hi
    obtain rfl : p = .finish := by
      subst hw
      rcases hi with hi | hi
      · cases hi
        rfl
      · cases hi
        rfl
    simp [phaseInstrs, access, Group.perform, hflag])
  obtain ⟨h₄, hat₄⟩ := hat₃.next hr (by omega) (mem_phaseInstrs (by omega) (by omega)) (nodup_phaseInstrs 9) (by simp [phaseInstrs])
  refine ⟨_, _, runFrom_append (runFrom_append (runFrom_append h₁ h₂) h₃) h₄, hat₄, rfl, rfl, rfl, fun r' hne => ?_,
    fun e he => ?_, fun e he => ?_⟩
  · simp [phaseInstrs, access, Group.perform, hne]
  · simp only [foldl_hist, List.mem_append]
    exact .inr (.inr (.inr (.inr he)))
  · simp only [foldl_hist, List.mem_append, List.mem_reverse, List.mem_map] at he
    rcases he with ⟨i, -, rfl⟩ | ⟨i, -, rfl⟩ | ⟨i, -, rfl⟩ | ⟨i, -, rfl⟩ | he
    · exact .inr ⟨rfl, rfl⟩
    · exact .inr ⟨rfl, rfl⟩
    · exact .inr ⟨rfl, rfl⟩
    · exact .inr ⟨rfl, rfl⟩
    · exact .inl he

/-- How far the two ranks are in call `n` when the first one is about to leave: the second has still to load the
element of the first. -/
def ahead (r : Nat) : Op → Bool
  | .copy _ => true
  | .run _ i => if r = 0 then Group.Instr.phase i ≤ 5 else Group.Instr.phase i ≤ 4 ∧ i ≠ .load 0 0

def Reached (n : Nat) (e : Event) : Prop :=
  (e.rank < 2 ∧ e ∈ (pair (late n)).stream e.rank e.launch) ∧ (e.launch < n ∨ e.launch = n ∧ ahead e.rank e.op = true)

instance (n : Nat) : DecidablePred (Reached n) := fun e => by
  unfold Reached
  infer_instance

theorem reached_pre {e e' : Event} (hpre : (pair (late n)).pre e' e) (h : Reached n e) : Reached n e' := by
  obtain ⟨hev, hlaunch⟩ := h
  have hev' : (pair (late n)).IsEvent e' := Group.pre_isEvent hpre hev
  refine ⟨hev', ?_⟩
  have hle := Group.pre_launch hpre
  rcases Nat.lt_or_ge e'.launch n with hlt | hge
  · exact .inl hlt
  obtain ⟨hk, hahead⟩ : e.launch = n ∧ ahead e.rank e.op = true := by
    rcases hlaunch with h | h
    · omega
    · exact h
  refine .inr ⟨by omega, ?_⟩
  obtain ⟨r, k, op⟩ := e
  dsimp only at hk hahead hle
  subst hk
  -- the order on the rank and in the block only goes back
  have hearlier : (∃ k' < k, e' ∈ (pair (late k)).stream r k') → ahead e'.rank e'.op = true := by
    rintro ⟨k', hk', hm⟩
    have := (Group.mem_stream_spec hm).2
    omega
  rcases hpre with hpre | ⟨b, p, i, hop, rfl⟩
  · cases op with
    | copy idx => exact hearlier (Group.prior_copy.mp hpre)
    | run b i =>
      by_cases hi : i = .enter .start
      · subst hi
        rcases Group.prior_enter.mp hpre with hpre | hpre
        · exact hearlier hpre
        · obtain ⟨idx, -, rfl⟩ := Group.mem_copies.mp hpre
          rfl
      · obtain ⟨i', -, hf, rfl⟩ := (Group.prior_run hi).mp hpre
        have hphase := Group.fenced_phase hf
        simp only [ahead] at hahead ⊢
        split at hahead
        · rename_i hr
          simp only [hr, if_true, decide_eq_true_eq] at hahead ⊢
          omega
        · rename_i hr
          simp only [hr, if_false, decide_eq_true_eq] at hahead ⊢
          refine ⟨by omega, ?_⟩
          rintro rfl
          have : Group.Instr.phase (.load 0 0) = 4 := rfl
          omega
  · dsimp only at hop
    subst hop
    cases p with
    | start => simp [ahead, Group.Instr.phase]
    | finish =>
      simp only [ahead, Group.Instr.phase] at hahead
      split at hahead
      · simp at hahead
      · simp at hahead

theorem exists_reached (hn : 2 * n + 2 = flagRange) : ∃ es s,
    runFrom (pair (late n)).step { mem := fun _ => 0, regs := fun _ => 0 } es = some s ∧
      (pair (late n)).Inv (fun _ => 0) s ∧ ∀ e, e ∈ s.hist ↔ Reached n e := by
  obtain ⟨es, s, hrun, -, hinv, hhist⟩ := Group.exists_run (G := pair (late n)) (fun _ => 0) (fun _ => 0)
    (Q := Reached n) (K := n + 1) (fun e e' hpre h => reached_pre hpre h) (fun e h => h.1)
    (fun e h => by
      have := h.2
      omega)
    (fun r k b p h => by
      obtain rfl := pair_block h.1
      rw [pair_due]
      have := Group.tick_le_two p
      rcases h.2 with hlt | ⟨heq, hahead⟩
      · dsimp only at hlt
        omega
      · dsimp only at heq
        subst heq
        cases p with
        | start =>
          simp only [Group.Barrier.tick]
          omega
        | finish =>
          simp only [ahead, Group.Instr.phase] at hahead
          split at hahead
          · simp at hahead
          · simp at hahead)
  exact ⟨es, s, hrun, hinv, hhist⟩

section
variable {s : Device Nat} (hs : (pair (late n)).Inv (fun _ => 0) s) (hhist : ∀ e, e ∈ s.hist ↔ Reached n e)
include hhist

theorem reached_access {r : Nat} (hr : r < 2) {i : Instr} : access n r i ∈ s.hist ↔
    i ∈ ((pair (late n)).launchAt n).program (pair (late n)).world r 0 ∧ ahead r (.run 0 i) = true := by
  have hblocks : 0 < ((pair (late n)).launchAt n).blocks := by
    rw [pair_launch]
    decide
  rw [hhist]
  unfold Reached access
  simp only [Group.mem_stream_run, true_and, hblocks, hr, Nat.lt_irrefl, false_or]

/-- A rank that is through with call `n` has performed all of its stream up to there. -/
theorem stream_done {s' : Device Nat} (hkeep : ∀ e ∈ s.hist, e ∈ s'.hist) {r : Nat} (hr : r < 2) (hat : At n s' r 9)
    {k : Nat} (hk : k ≤ n) {e : Event} (he : e ∈ (pair (late n)).stream r k) : e ∈ s'.hist := by
  obtain ⟨rfl, rfl⟩ := Group.mem_stream_spec he
  rcases Nat.lt_or_eq_of_le hk with hlt | heq
  · exact hkeep e ((hhist e).mpr ⟨⟨hr, he⟩, .inl hlt⟩)
  · obtain ⟨r, k, op⟩ := e
    cases op with
    | copy idx => exact hkeep _ ((hhist _).mpr ⟨⟨hr, he⟩, .inr ⟨heq, rfl⟩⟩)
    | run b i =>
      obtain rfl := pair_block ⟨hr, he⟩
      dsimp only at heq
      subst heq
      exact hat.done i (Group.mem_stream_run.mp he).2.2.2 (Group.phase_le (.run 0 i))

include hs

theorem reached_flag (hn : 2 * n + 2 = flagRange) {r : Nat} (hr : r < 2) : s.flag (r, 0) + 1 = flagRange := by
  have hblocks : 0 < ((pair (late n)).launchAt n).blocks := by
    rw [pair_launch]
    decide
  have hstart := hs.counted.flag r 0 n .start hblocks
  have hfinish := hs.counted.flag r 0 n .finish hblocks
  rw [pair_due] at hstart hfinish
  have hdone : access n r (.update .start) ∈ s.hist := by
    refine (reached_access hhist hr).mpr ⟨pair_program.mpr trivial, ?_⟩
    simp [ahead, Group.Instr.phase]
  have hmissing : access n r (.update .finish) ∉ s.hist := by
    rw [reached_access hhist hr]
    simp only [ahead, Group.Instr.phase]
    split
    · simp
    · simp
  have hge := (hstart.mp hdone).2
  have hlt : ¬ 2 * n + Group.Barrier.tick .finish ≤ s.flag (r, 0) := fun hle => hmissing (hfinish.mpr ⟨hr, hle⟩)
  simp only [Group.Barrier.tick] at hge hlt
  omega

end

end

/-- A call whose output on the second rank is not the sum of its inputs, after a run of accepted calls. -/
theorem sum_wrong_after_wrap : ∃ (G : Group Nat Nat) (es : List Event) (s : Device Nat) (k : Nat),
    (∀ k, G.comm.shouldCustomAr (G.calls k) = true) ∧
      runFrom G.step { mem := fun _ => 0, regs := fun _ => 0 } es = some s ∧ (∀ e ∈ G.stream 1 k, e ∈ s.hist) ∧
        s.out (1, k, 0) = some 1 ∧ G.total k 0 = 0 := by
  obtain ⟨n, hn⟩ : ∃ n, 2 * n + 2 = flagRange := ⟨2 ^ 31 - 1, by decide⟩
  obtain ⟨es₀, s₀, hrun₀, hs, hhist⟩ := exists_reached hn
  have hacc := fun {r} hr {i} => @reached_access n s₀ hhist r hr i
  -- the first rank leaves
  have hat₀ : At n s₀ 0 5 := by
    refine ⟨fun i hi hle => (hacc (by decide)).mpr ⟨hi, by simpa [ahead] using hle⟩, fun i hlt hm => ?_⟩
    have := ((hacc (by decide)).mp hm).2
    simp only [ahead, if_true, decide_eq_true_eq] at this
    omega
  obtain ⟨es₁, s₁, hrun₁, hat₁, hmem₁, hregs₁, hout₁, hflag₁, hkeep₁, hnew₁⟩ :=
    leave_alone (by decide) hat₀ (reached_flag hs hhist hn (by decide))
  -- and copies its next input
  have hcopy : (pair (late n)).step s₁ ⟨0, n + 1, .copy 0⟩ = some ((pair (late n)).perform s₁ ⟨0, n + 1, .copy 0⟩) := by
    refine if_pos ⟨Nat.zero_lt_two, Group.mem_stream_copy.mpr ⟨rfl, rfl, by rw [pair_launch]; decide⟩, fun hm => ?_, ?_, rfl⟩
    · rcases hnew₁ _ hm with hm | hm
      · have := ((hhist _).mp hm).2
        dsimp only at this
        omega
      · have := hm.2
        dsimp only at this
        omega
    · intro e he
      obtain ⟨k, hk, hm⟩ := Group.prior_copy.mp he
      exact stream_done hhist hkeep₁ (by decide) hat₁ (Nat.le_of_lt_succ hk) hm
  obtain ⟨s₂, hs₂⟩ : ∃ s₂, s₂ = (pair (late n)).perform s₁ ⟨0, n + 1, .copy 0⟩ := ⟨_, rfl⟩
  rw [← hs₂] at hcopy
  have hhist₂ : s₂.hist = ⟨0, n + 1, .copy 0⟩ :: s₁.hist := by rw [hs₂, Group.perform_hist]
  have hmem₂ : s₂.mem (.input 0 0) = 1 := by
    rw [hs₂]
    simp [Group.perform, pair, late]
  have hrank₁ : ∀ i, access n 1 i ∈ s₂.hist ↔ access n 1 i ∈ s₀.hist := by
    intro i
    rw [hhist₂, List.mem_cons]
    refine ⟨fun hm => ?_, fun hm => .inr (hkeep₁ _ hm)⟩
    rcases hm with hm | hm
    · cases hm
    · refine (hnew₁ _ hm).resolve_right fun h => ?_
      have : (1 : Nat) = 0 := h.1
      omega
  -- before the second rank loads it
  have hload := @run_phase n 1 3 (by decide) (by decide) [.load 0 0] s₂
    (fun i hi hle => (hrank₁ i).mpr ((hacc (by decide)).mpr ⟨hi, by
      simp only [ahead, Nat.one_ne_zero, if_false, decide_eq_true_eq]
      refine ⟨by omega, ?_⟩
      rintro rfl
      simp [Group.Instr.phase] at hle⟩))
    (by simp [pair_program, Group.Instr.phase]) (by simp)
    (by
      intro i hi
      obtain rfl := List.mem_singleton.mp hi
      rw [hrank₁, hacc (by decide)]
      simp [ahead])
    (by simp)
  obtain ⟨s₃, hs₃⟩ : ∃ s₃, s₃ = (pair (late n)).perform s₂ (access n 1 (.load 0 0)) := ⟨_, rfl⟩
  simp only [List.map_cons, List.map_nil, List.foldl_cons, List.foldl_nil, ← hs₃] at hload
  have hhist₃ : s₃.hist = access n 1 (.load 0 0) :: s₂.hist := by rw [hs₃, Group.perform_hist]
  have hat₃ : At n s₃ 1 4 := by
    refine ⟨fun i hi hle => ?_, fun i hlt hm => ?_⟩
    · rw [hhist₃, List.mem_cons]
      by_cases hl : i = .load 0 0
      · rw [hl]
        exact .inl rfl
      · exact .inr ((hrank₁ i).mpr ((hacc (by decide)).mpr ⟨hi, by simp [ahead, hle, hl]⟩))
    · rw [hhist₃, List.mem_cons] at hm
      rcases hm with hm | hm
      · cases hm
        simp [Group.Instr.phase] at hlt
      · have := ((hacc (by decide)).mp ((hrank₁ i).mp hm)).2
        simp only [ahead, Nat.one_ne_zero, if_false, decide_eq_true_eq] at this
        omega
  -- and sums it
  obtain ⟨hstore, hat₄⟩ := hat₃.next (by decide) (by decide) (mem_phaseInstrs (by omega) (by omega))
    (nodup_phaseInstrs 5) (by simp [phaseInstrs])
  obtain ⟨s₄, hs₄⟩ : ∃ s₄, s₄ = (pair (late n)).perform s₃ (access n 1 (.store 0)) := ⟨_, rfl⟩
  simp only [phaseInstrs, List.map_cons, List.map_nil, List.foldl_cons, List.foldl_nil, ← hs₄] at hstore hat₄
  have hregs₃ : s₃.regs (1, n, 0, 0) = 1 ∧ s₃.regs (1, n, 0, 1) = 0 := by
    have hown : access n 1 (.load 0 1) ∈ s₀.hist := (hacc (by decide)).mpr ⟨pair_program.mpr (by decide), by
      simp [ahead, Group.Instr.phase]⟩
    have hzero : s₀.regs (1, n, 0, 1) = 0 := by
      rw [hs.regs 1 n 0 0 1 hown]
      simp [pair, late]
    have hregs₂ : s₂.regs = s₀.regs := by
      rw [hs₂, ← hregs₁]
      rfl
    rw [hs₃]
    constructor
    · simp only [Group.perform, access, Function.update_self]
      exact hmem₂
    · simp only [Group.perform, access]
      rw [Function.update_of_ne (by simp), hregs₂]
      exact hzero
  have hout₄ : s₄.out (1, n, 0) = some 1 := by
    rw [hs₄]
    simp only [Group.perform, access, pair_launch, Launch.ptrs, Function.update_self]
    have hrange : List.range (pair (late n)).world = [0, 1] := rfl
    rw [hrange]
    simp only [List.map_cons, List.map_nil, hregs₃.1, hregs₃.2]
    rfl
  have hflag₄ : s₄.flag (1, 0) + 1 = flagRange := by
    have hsame : s₄.flag = s₁.flag := by
      rw [hs₄, Group.perform_flag, hs₃, Group.perform_flag, hs₂, Group.perform_flag]
      rfl
    rw [hsame, hflag₁ 1 (by decide)]
    exact reached_flag hs hhist hn (by decide)
  obtain ⟨es₅, s₅, hrun₅, hat₅, -, -, hout₅, -, hkeep₅, -⟩ := leave_alone (by decide) hat₄ hflag₄
  have hkeep : ∀ e ∈ s₀.hist, e ∈ s₅.hist := by
    intro e he
    refine hkeep₅ e ?_
    rw [hs₄, Group.perform_hist, hhist₃, hhist₂]
    exact List.mem_cons_of_mem _ (List.mem_cons_of_mem _ (List.mem_cons_of_mem _ (hkeep₁ e he)))
  have hone : runFrom (pair (late n)).step s₁ [⟨0, n + 1, .copy 0⟩] = some s₂ := by
    rw [runFrom, hcopy]
    rfl
  refine ⟨pair (late n), _, s₅, n, pair_accepts,
    runFrom_append (runFrom_append (runFrom_append (runFrom_append (runFrom_append hrun₀ hrun₁) hone) hload) hstore) hrun₅,
    fun e he => stream_done hhist hkeep (by decide) hat₅ (Nat.le_refl n) he, ?_, ?_⟩
  · rw [hout₅]
    exact hout₄
  · simp [Group.total, pair, late]

end VllmHcu.CustomAr
