import VllmHcu.CustomAr.BarrierSound

/-!
# Safety of the custom all-reduce

As long as no counter wraps, every load reads the copy of its own call, every
gather the sum that its source stored in the same call, and each output is the
sum of the inputs. A counter that wraps lets a block through the barrier alone.
-/

namespace VllmHcu.CustomAr

namespace Group

section
variable {P A : Type} [AddCommMonoid A] {G : Group P A}

/-- The sum over the ranks of the inputs of a call. -/
def total (G : Group P A) (k idx : Nat) : P :=
  G.downcast (((List.range G.world).map fun R => G.upcast ((G.calls k).input R idx)).sum)

theorem foldl_add (up : P → A) : ∀ (xs : List P) (a : A), xs.foldl (fun tmp y => tmp + up y) a = a + (xs.map up).sum
  | [], a => by simp
  | x :: xs, a => by
    rw [List.foldl_cons, foldl_add up xs, List.map_cons, List.sum_cons, add_assoc]

theorem packedReduce_eq (G : Group P A) (xs : List P) : G.packedReduce xs = G.downcast (xs.map G.upcast).sum := by
  cases xs with
  | nil => rfl
  | cons x xs => rw [packedReduce, foldl_add, List.map_cons, List.sum_cons]

/-! ## The memory -/

/-- What an event is to store into the buffers. -/
def writes (G : Group P A) (e : Event) (loc : Loc) : Option P :=
  match e.op with
  | .copy idx =>
    if loc = .input e.rank ((G.calls e.launch).ptrs e.rank + idx) then some ((G.calls e.launch).input e.rank idx)
    else none
  | .run _ (.store idx) =>
    if (G.launchAt e.launch).kernel = .twoStage ∧ loc = .tmp e.rank (idx - (G.launchAt e.launch).start G.world e.rank) then
      some (G.total e.launch idx)
    else none
  | _ => none

theorem writes_input {e : Event} {R addr : Nat} (h : G.writes e (.input R addr) ≠ none) :
    ∃ idx, e = ⟨R, e.launch, .copy idx⟩ ∧ addr = (G.calls e.launch).ptrs R + idx := by
  obtain ⟨r, k, op⟩ := e
  cases op with
  | copy idx =>
    simp only [writes, Loc.input.injEq, ne_eq, ite_eq_right_iff, reduceCtorEq, imp_false, not_not] at h
    obtain ⟨rfl, rfl⟩ := h
    exact ⟨idx, rfl, rfl⟩
  | run b i =>
    cases i with
    | store idx => simp [writes] at h
    | _ => exact absurd rfl h

theorem writes_tmp {e : Event} {R j : Nat} (h : G.writes e (.tmp R j) ≠ none) :
    ∃ b idx, e = ⟨R, e.launch, .run b (.store idx)⟩ ∧ (G.launchAt e.launch).kernel = .twoStage ∧
      j = idx - (G.launchAt e.launch).start G.world R := by
  obtain ⟨r, k, op⟩ := e
  cases op with
  | copy idx => simp [writes] at h
  | run b i =>
    cases i with
    | store idx =>
      simp only [writes, Loc.tmp.injEq, ne_eq, ite_eq_right_iff, reduceCtorEq, imp_false, not_not] at h
      obtain ⟨hk, rfl, rfl⟩ := h
      exact ⟨b, idx, rfl, hk, rfl⟩
    | _ => exact absurd rfl h

section
variable {h : List Event} (mem : Loc → P) (hc : Causal G.pre h) (hev : ∀ e ∈ h, G.IsEvent e)
include hc hev

theorem load_reads {r k b idx R : Nat} (he : G.IsEvent ⟨r, k, .run b (.load idx R)⟩)
    (hnew : (⟨r, k, .run b (.load idx R)⟩ : Event) ∉ h)
    (hready : ∀ e', G.pre e' ⟨r, k, .run b (.load idx R)⟩ → e' ∈ h) :
    (⟨R, k, .copy idx⟩ : Event) ∈ h ∧
      memory G.writes mem h (.input R ((G.calls k).ptrs R + idx)) = (G.calls k).input R idx := by
  obtain ⟨hr, hb, hi⟩ := isEvent_run.mp he
  obtain ⟨hidx, hR⟩ := (Launch.mem_program G.world_pos).mp hi
  have hsize := Launch.lt_size_of_reduced (launchAt_wf k) hr hb hidx
  have hcopy : (⟨R, k, .copy idx⟩ : Event) ∈ h := hc.mem_of_ready hready (copy_before_load hR hsize)
  refine ⟨hcopy, hc.read_eq hnew hcopy (if_pos rfl) fun w hw hsome => ?_⟩
  obtain ⟨idx', hwe, haddr⟩ := writes_input hsome
  rcases Nat.lt_trichotomy w.launch k with hlt | heq | hgt
  · refine .inr (.inl (stream_before (hev w hw) ?_ hlt))
    rw [hwe]
  · rw [heq] at hwe haddr
    obtain rfl : idx = idx' := by omega
    exact .inl hwe
  · rw [hwe]
    exact .inr (.inr (load_before_copy he hgt))

theorem gather_reads {r k b idx R : Nat} (he : G.IsEvent ⟨r, k, .run b (.gather R idx)⟩)
    (hnew : (⟨r, k, .run b (.gather R idx)⟩ : Event) ∉ h)
    (hready : ∀ e', G.pre e' ⟨r, k, .run b (.gather R idx)⟩ → e' ∈ h) :
    (⟨R, k, .run b (.store ((G.launchAt k).start G.world R + idx))⟩ : Event) ∈ h ∧
      memory G.writes mem h (.tmp R idx) = G.total k ((G.launchAt k).start G.world R + idx) := by
  obtain ⟨hr, hb, hi⟩ := isEvent_run.mp he
  obtain ⟨hk, hidx, hR, hpart⟩ := (Launch.mem_program G.world_pos).mp hi
  have hred := Launch.reduced_of_gather (launchAt_wf k) G.world_pos hk hb hidx hpart
  have hevent : G.IsEvent ⟨R, k, .run b (.store ((G.launchAt k).start G.world R + idx))⟩ :=
    isEvent_run.mpr ⟨hR, hb, (Launch.mem_program G.world_pos).mpr hred⟩
  have hstore := hc.mem_of_ready hready (store_before_gather hevent)
  have hval : G.writes ⟨R, k, .run b (.store ((G.launchAt k).start G.world R + idx))⟩ (.tmp R idx) =
      some (G.total k ((G.launchAt k).start G.world R + idx)) := if_pos ⟨hk, by simp⟩
  refine ⟨hstore, hc.read_eq hnew hstore hval fun w hw hsome => ?_⟩
  obtain ⟨b', idx', hwe, hk', hj⟩ := writes_tmp hsome
  have hwev := hev w hw
  rcases Nat.lt_trichotomy w.launch k with hlt | heq | hgt
  · refine .inr (.inl (stream_before hwev ?_ hlt))
    rw [hwe]
  · rw [heq] at hwe hj
    rw [hwe, isEvent_run, Launch.mem_program G.world_pos] at hwev
    obtain ⟨rfl, rfl⟩ := Launch.reduced_inj (launchAt_wf k) hk hb hwev.2.1 hred hwev.2.2 (by omega)
    exact .inl hwe
  · rw [hwe]
    exact .inr (.inr (gather_before_store he hgt))

end

/-! ## The invariant -/

structure Inv (G : Group P A) (mem : Loc → P) (s : Device P) : Prop where
  counted : G.Counted s
  mem : s.mem = memory G.writes mem s.hist
  regs : ∀ r k b idx R, (⟨r, k, .run b (.load idx R)⟩ : Event) ∈ s.hist →
    s.regs (r, k, idx, R) = (G.calls k).input R idx
  out : ∀ r k b i idx, (⟨r, k, .run b i⟩ : Event) ∈ s.hist → (G.launchAt k).written G.world i = some idx →
    s.out (r, k, idx) = some (G.total k idx)

theorem inv_initial (mem : Loc → P) (regs : Nat × Nat × Nat × Nat → P) : G.Inv mem { mem := mem, regs := regs } :=
  ⟨counted_initial mem regs, rfl, nofun, nofun⟩

theorem perform_regs (s : Device P) (e : Event) : (G.perform s e).regs =
    match e.op with
    | .run _ (.load idx R) => Function.update s.regs (e.rank, e.launch, idx, R)
      (s.mem (.input R ((G.calls e.launch).ptrs R + idx)))
    | _ => s.regs := by
  obtain ⟨r, k, op⟩ := e
  cases op with
  | copy idx => rfl
  | run b i =>
    cases i with
    | store idx =>
      obtain ⟨mem, out, hs⟩ := perform_store (G := G) s r k b idx
      rw [hs]
    | _ => rfl

section
variable {mem : Loc → P} {s : Device P} (h : G.Inv mem s)
include h

theorem Inv.reduce_eq {r k b idx : Nat} (he : G.IsEvent ⟨r, k, .run b (.store idx)⟩)
    (hready : ∀ e', G.pre e' ⟨r, k, .run b (.store idx)⟩ → e' ∈ s.hist) :
    G.packedReduce (((G.launchAt k).ptrs G.world r).map fun R => s.regs (r, k, idx, R)) = G.total k idx := by
  have hidx := (Launch.mem_program G.world_pos).mp (mem_of_isEvent he)
  have hperm := (G.launchAt k).ptrs_perm G.world_pos r
  have hregs : ∀ R ∈ (G.launchAt k).ptrs G.world r, s.regs (r, k, idx, R) = (G.calls k).input R idx := by
    intro R hR
    have hload : (.load idx R) ∈ (G.launchAt k).program G.world r b :=
      (Launch.mem_program G.world_pos).mpr ⟨hidx, List.mem_range.mp (hperm.mem_iff.mp hR)⟩
    exact h.regs r k b idx R (hready _ (pre_of_fenced nofun hload (by simp [Launch.fenced])))
  rw [packedReduce_eq, List.map_map]
  unfold total
  congr 1
  calc (((G.launchAt k).ptrs G.world r).map (G.upcast ∘ fun R => s.regs (r, k, idx, R))).sum
      = (((G.launchAt k).ptrs G.world r).map fun R => G.upcast ((G.calls k).input R idx)).sum := by
        congr 1
        refine List.map_congr_left fun R hR => ?_
        simp only [Function.comp_apply, hregs R hR]
    _ = ((List.range G.world).map fun R => G.upcast ((G.calls k).input R idx)).sum := (hperm.map _).sum_eq

theorem Inv.mem_step {e : Event} (he : G.IsEvent e) (hready : ∀ e', G.pre e' e → e' ∈ s.hist) :
    (G.perform s e).mem = memory G.writes mem (e :: s.hist) := by
  obtain ⟨r, k, op⟩ := e
  funext loc
  rw [memory, ← h.mem]
  cases op with
  | copy idx =>
    simp only [perform, writes, Function.update_apply]
    split
    · rfl
    · rfl
  | run b i =>
    cases i with
    | store idx =>
      simp only [perform, writes]
      rw [h.reduce_eq he hready]
      cases hk : (G.launchAt k).kernel with
      | oneStage => simp
      | twoStage =>
        simp only [Function.update_apply, true_and]
        split
        · rfl
        · rfl
    | _ => rfl

theorem Inv.regs_step {e : Event} (he : G.IsEvent e) (hnew : e ∉ s.hist) (hready : ∀ e', G.pre e' e → e' ∈ s.hist)
    (r k b idx R : Nat) (hm : (⟨r, k, .run b (.load idx R)⟩ : Event) ∈ e :: s.hist) :
    (G.perform s e).regs (r, k, idx, R) = (G.calls k).input R idx := by
  obtain ⟨r₀, k₀, op⟩ := e
  rw [perform_regs]
  cases op with
  | copy idx => exact h.regs r k b _ R (by simpa using hm)
  | run b₀ i =>
    cases i with
    | load idx₀ R₀ =>
      dsimp only
      have hread := (load_reads mem h.counted.causal h.counted.events he hnew hready).2
      rw [← h.mem] at hread
      rw [Function.update_apply]
      split
      · rename_i hkey
        cases hkey
        exact hread
      · rename_i hkey
        refine h.regs r k b idx R ((List.mem_cons.mp hm).resolve_left fun heq => hkey ?_)
        cases heq
        rfl
    | _ => exact h.regs r k b idx R (by simpa using hm)

theorem Inv.out_self {r k b : Nat} {i : Instr} (he : G.IsEvent ⟨r, k, .run b i⟩)
    (hnew : (⟨r, k, .run b i⟩ : Event) ∉ s.hist) (hready : ∀ e', G.pre e' ⟨r, k, .run b i⟩ → e' ∈ s.hist) {idx : Nat}
    (hw : (G.launchAt k).written G.world i = some idx) :
    (G.perform s ⟨r, k, .run b i⟩).out = Function.update s.out (r, k, idx) (some (G.total k idx)) := by
  cases i with
  | store idx₀ =>
    cases hk : (G.launchAt k).kernel with
    | oneStage =>
      simp only [Launch.written, hk, if_true, Option.some.injEq] at hw
      subst hw
      simp only [perform, h.reduce_eq he hready, hk]
    | twoStage => simp [Launch.written, hk] at hw
  | gather R j =>
    simp only [Launch.written, Option.some.injEq] at hw
    subst hw
    have hread := (gather_reads mem h.counted.causal h.counted.events he hnew hready).2
    rw [← h.mem] at hread
    simp only [perform, hread]
    rfl
  | _ => cases hw

theorem Inv.out_step {e : Event} (he : G.IsEvent e) (hnew : e ∉ s.hist) (hready : ∀ e', G.pre e' e → e' ∈ s.hist)
    (r k b : Nat) (i : Instr) (idx : Nat) (hm : (⟨r, k, .run b i⟩ : Event) ∈ e :: s.hist)
    (hw : (G.launchAt k).written G.world i = some idx) : (G.perform s e).out (r, k, idx) = some (G.total k idx) := by
  rcases List.mem_cons.mp hm with rfl | hm
  · rw [h.out_self he hnew hready hw, Function.update_self]
  have hold := h.out r k b i idx hm hw
  obtain ⟨r₀, k₀, op⟩ := e
  cases op with
  | copy idx => exact hold
  | run b₀ i₀ =>
    cases hw₀ : (G.launchAt k₀).written G.world i₀ with
    | some idx₀ =>
      rw [h.out_self he hnew hready hw₀, Function.update_apply]
      split
      · rename_i hkey
        cases hkey
        rfl
      · exact hold
    | none =>
      cases i₀ with
      | store idx₀ =>
        have hk : (G.launchAt k₀).kernel = .twoStage := by
          cases hk : (G.launchAt k₀).kernel with
          | oneStage => simp [Launch.written, hk] at hw₀
          | twoStage => rfl
        simp only [perform, hk]
        exact hold
      | gather R j => cases hw₀
      | _ => exact hold

theorem Inv.step {s' : Device P} {e : Event} (hnw : noWrap s e = true) (hstep : G.step s e = some s') :
    G.Inv mem s' := by
  have hcounted := h.counted.step hnw hstep
  obtain ⟨he, hnew, hprior, hen, rfl⟩ := step_spec hstep
  have hready := h.counted.ready he hprior hen
  refine ⟨hcounted, ?_, ?_, ?_⟩
  · rw [perform_hist]
    exact h.mem_step he hready
  · rw [perform_hist]
    exact h.regs_step he hnew hready
  · rw [perform_hist]
    exact h.out_step he hnew hready

/-- No launch waits for ever: some event is enabled as long as one is missing. -/
theorem Inv.progress {Q : Event → Prop} (hQ : ∀ e e', G.pre e' e → Q e → Q e') (hevent : ∀ e, Q e → G.IsEvent e)
    {e : Event} (he : Q e) (hmissing : e ∉ s.hist) :
    ∃ e, Q e ∧ e ∉ s.hist ∧ (∀ e', G.pre e' e → e' ∈ s.hist) ∧ G.step s e = some (G.perform s e) := by
  obtain ⟨e, he, hnew, hready⟩ := exists_ready stage (fun _ _ => pre_stage) (fun a b hab hb => hQ b a hab hb) he hmissing
  have hev := hevent e he
  refine ⟨e, he, hnew, hready, if_pos ⟨hev.1, hev.2, hnew, fun e' he' => hready e' (.inl he'), ?_⟩⟩
  exact h.counted.enabled_of_ready hev hready

end

theorem pre_launch {e e' : Event} (h : G.pre e' e) : e'.launch ≤ e.launch := by
  have hlt := pre_stage h
  have := phase_le e.op
  unfold stage at hlt
  omega

/-- The element of an output that an event writes, with the rank and the launch. -/
def outputs (G : Group P A) (e : Event) : Option (Nat × Nat × Nat) :=
  match e.op with
  | .copy _ => none
  | .run _ i => ((G.launchAt e.launch).written G.world i).map fun idx => (e.rank, e.launch, idx)

theorem outputs_eq {e : Event} {r k idx : Nat} (h : G.outputs e = some (r, k, idx)) :
    ∃ b i, e = ⟨r, k, .run b i⟩ ∧ (G.launchAt k).written G.world i = some idx := by
  obtain ⟨r', k', op⟩ := e
  cases op with
  | copy idx => cases h
  | run b i =>
    obtain ⟨idx', hw, heq⟩ := Option.map_eq_some_iff.mp h
    cases heq
    exact ⟨b, i, rfl, hw⟩

/-- A finished launch has written each element of its output once, with the sum. -/
theorem Inv.finished {mem : Loc → P} {s : Device P} (h : G.Inv mem s) {r k idx : Nat}
    (hdone : ∀ e ∈ G.stream r k, e ∈ s.hist) (hidx : idx < (G.launchAt k).size) :
    s.out (r, k, idx) = some (G.total k idx) ∧ ∃! e, e ∈ s.hist ∧ G.outputs e = some (r, k, idx) := by
  obtain ⟨b, i, hb, hi, hw⟩ := Launch.exists_written (launchAt_wf k) G.world_pos r hidx
  have hmem : (⟨r, k, .run b i⟩ : Event) ∈ s.hist := hdone _ (mem_stream_run.mpr ⟨rfl, rfl, hb, hi⟩)
  refine ⟨h.out r k b i idx hmem hw, ⟨r, k, .run b i⟩, ⟨hmem, by simp [outputs, hw]⟩, ?_⟩
  rintro e ⟨he, hout⟩
  obtain ⟨b', i', rfl, hw'⟩ := outputs_eq hout
  obtain ⟨-, hb', hi'⟩ := isEvent_run.mp (h.counted.events _ he)
  obtain ⟨rfl, rfl⟩ := Launch.written_inj (launchAt_wf k) G.world_pos hb' hb hi' hi hw' hw
  rfl

/-- Every finite set of events that waits only for itself can be performed, when no counter wraps in it. -/
theorem exists_run (mem : Loc → P) (regs : Nat × Nat × Nat × Nat → P) {Q : Event → Prop} [DecidablePred Q] {K : Nat}
    (hQ : ∀ e e', G.pre e' e → Q e → Q e') (hevent : ∀ e, Q e → G.IsEvent e) (hK : ∀ e, Q e → e.launch < K)
    (hwrap : ∀ r k b p, Q ⟨r, k, .run b (.enter p)⟩ → G.due b p k < flagRange) :
    ∃ es s, runFrom G.step { mem := mem, regs := regs } es = some s ∧
      Along G.step (fun s e => noWrap s e = true) { mem := mem, regs := regs } es ∧ G.Inv mem s ∧
      ∀ e, e ∈ s.hist ↔ Q e := by
  let todo := (((List.range K).flatMap fun k => (List.range G.world).flatMap fun r => G.stream r k).filter fun e => Q e)
  have htodo : ∀ e, e ∈ todo ↔ Q e := by
    intro e
    simp only [todo, List.mem_filter, List.mem_flatMap, List.mem_range, decide_eq_true_eq]
    refine ⟨And.right, fun he => ⟨⟨e.launch, hK e he, e.rank, (hevent e he).1, (hevent e he).2⟩, he⟩⟩
  have hnext : ∀ s, (G.Inv mem s ∧ ∀ e ∈ s.hist, Q e) → ∀ e ∈ todo, e ∉ s.hist →
      ∃ e' ∈ todo, ∃ s', e' ∉ s.hist ∧ noWrap s e' = true ∧ G.step s e' = some s' ∧ s'.hist = e' :: s.hist ∧
        G.Inv mem s' ∧ ∀ e ∈ s'.hist, Q e := by
    rintro s ⟨hs, hsub⟩ e he hout
    obtain ⟨e', hQ', hnew, hready, hstep⟩ := hs.progress hQ hevent ((htodo e).mp he) hout
    have hnw : noWrap s e' = true := by
      unfold noWrap
      split
      · rename_i b p hop
        obtain ⟨r, k, op⟩ := e'
        dsimp only at hop
        subst hop
        rw [decide_eq_true_eq, hs.counted.flag_of_enter (hevent _ hQ') hnew hready]
        exact hwrap r k b p hQ'
      · rfl
    refine ⟨e', (htodo e').mpr hQ', _, hnew, hnw, hstep, perform_hist s e', hs.step hnw hstep, ?_⟩
    rw [perform_hist]
    intro x hx
    rcases List.mem_cons.mp hx with rfl | hx
    · exact hQ'
    · exact hsub x hx
  obtain ⟨es, s, halong, hrun, ⟨hs, hsub⟩, hall⟩ := exists_run_all Device.hist hnext
    { mem := mem, regs := regs } ⟨inv_initial mem regs, nofun⟩
  exact ⟨es, s, hrun, halong, hs, fun e => ⟨hsub e, fun he => hall e ((htodo e).mpr he)⟩⟩

end

end Group

/-- In a run in which no counter wraps, every finished call has written each element of its output once, with the sum
over the ranks; a load reads the copy and a gather the sum of its own call, nothing is stored over before the readers of
the calls before have read it, and no call gets stuck. -/
theorem allreduce_sums {P A : Type} [AddCommMonoid A] (G : Group P A)
    (hacc : ∀ k, G.comm.shouldCustomAr (G.calls k) = true) (mem : Loc → P) (regs : Nat × Nat × Nat × Nat → P)
    (es : List Event) (s : Device P) (hrun : runFrom G.step { mem := mem, regs := regs } es = some s)
    (hnw : Along G.step (fun s e => Group.noWrap s e = true) { mem := mem, regs := regs } es) :
    (∀ r < G.world, ∀ k, (∀ e ∈ G.stream r k, e ∈ s.hist) →
      ∀ idx < (G.calls k).numel / (G.calls k).dtype.packed,
        s.out (r, k, idx) = some (G.total k idx) ∧ ∃! e, e ∈ s.hist ∧ G.outputs e = some (r, k, idx)) ∧
    s.hist.Nodup ∧
    (∀ r k b idx R s', G.step s ⟨r, k, .run b (.load idx R)⟩ = some s' →
      (⟨R, k, .copy idx⟩ : Event) ∈ s.hist ∧ s.mem (.input R ((G.calls k).ptrs R + idx)) = (G.calls k).input R idx) ∧
    (∀ r k b R idx s', G.step s ⟨r, k, .run b (.gather R idx)⟩ = some s' →
      (⟨R, k, .run b (.store (R * (G.launchAt k).part G.world + idx))⟩ : Event) ∈ s.hist ∧
        s.mem (.tmp R idx) = G.total k (R * (G.launchAt k).part G.world + idx)) ∧
    (∀ R k idx s', G.step s ⟨R, k, .copy idx⟩ = some s' → ∀ k' < k, ∀ r b idx' target,
      G.IsEvent ⟨r, k', .run b (.load idx' target)⟩ → (⟨r, k', .run b (.load idx' target)⟩ : Event) ∈ s.hist) ∧
    (∀ R k b idx s', G.step s ⟨R, k, .run b (.store idx)⟩ = some s' → ∀ k' < k, ∀ r b' source idx',
      G.IsEvent ⟨r, k', .run b' (.gather source idx')⟩ → (⟨r, k', .run b' (.gather source idx')⟩ : Event) ∈ s.hist) ∧
    ∀ e, G.IsEvent e → e ∉ s.hist → ∃ e' s', e'.launch ≤ e.launch ∧ G.step s e' = some s' := by
  have h : G.Inv mem s := run_invariant (fun s e s' hs hnw hstep => hs.step hnw hstep) (Group.inv_initial mem regs) hnw hrun
  refine ⟨fun r _ k hdone idx hidx => h.finished hdone ?_, h.counted.causal.nodup, ?_, ?_, ?_, ?_, ?_⟩
  · rw [launchAt_accepted (hacc k)]
    exact hidx
  · intro r k b idx R s' hstep
    obtain ⟨he, hnew, hprior, hen, -⟩ := Group.step_spec hstep
    rw [h.mem]
    exact Group.load_reads mem h.counted.causal h.counted.events he hnew (h.counted.ready he hprior hen)
  · intro r k b R idx s' hstep
    obtain ⟨he, hnew, hprior, hen, -⟩ := Group.step_spec hstep
    rw [h.mem]
    exact Group.gather_reads mem h.counted.causal h.counted.events he hnew (h.counted.ready he hprior hen)
  · intro R k idx s' hstep k' hlt r b idx' target he'
    obtain ⟨he, -, hprior, hen, -⟩ := Group.step_spec hstep
    exact h.counted.causal.mem_of_ready (h.counted.ready he hprior hen) (Group.load_before_copy he' hlt)
  · intro R k b idx s' hstep k' hlt r b' source idx' he'
    obtain ⟨he, -, hprior, hen, -⟩ := Group.step_spec hstep
    exact h.counted.causal.mem_of_ready (h.counted.ready he hprior hen) (Group.gather_before_store he' hlt)
  · intro e he hmissing
    obtain ⟨e', ⟨-, hle⟩, -, -, hstep⟩ := h.progress (Q := fun e' => G.IsEvent e' ∧ e'.launch ≤ e.launch)
      (fun a b hab ha => ⟨Group.pre_isEvent hab ha.1, (Group.pre_launch hab).trans ha.2⟩) (fun _ h => h.1)
      ⟨he, Nat.le_refl _⟩ hmissing
    exact ⟨e', _, hle, hstep⟩

end VllmHcu.CustomAr
