import Mathlib.Algebra.BigOperators.Group.List.Basic
import Mathlib.Data.List.Nodup
import VllmHcu.CustomAr.AllReduce

/-!
# What a launch writes

An accepted call is launched with as many packed elements as its input has, and
each element of the output is written by one access of one block.
-/

namespace VllmHcu.CustomAr

/-! ## Dispatch -/

theorem packed_dvd {t : Dtype} {numel : Nat} (h : numel * t.elementSize % 16 = 0) : numel % t.packed = 0 := by
  cases t with
  | _ =>
    simp only [Dtype.elementSize, Dtype.packed] at *
    omega

section
variable {P A : Type} {G : Group P A}

theorem shouldCustomAr_spec {c : CustomAllreduce} {inp : Call P} (h : c.shouldCustomAr inp = true) :
    inp.numel * inp.dtype.elementSize % 16 = 0 ∧ (c.worldSize = 2 ∨ c.fullyConnected = true) := by
  unfold CustomAllreduce.shouldCustomAr at h
  simp only [] at h
  split at h
  · cases h
  split at h
  · cases h
  rename_i hmod
  split at h
  · cases h
  split at h
  · rename_i hworld
    exact ⟨by simpa using hmod, hworld⟩
  · cases h

theorem reduceCase_isSome {c : CustomAllreduce} (h : c.worldSize = 2 ∨ c.fullyConnected = true) (force : Option Kernel)
    (four eight bytes : Nat) : ∃ kernel, c.reduceCase force four eight bytes = some kernel := by
  unfold CustomAllreduce.reduceCase
  cases force with
  | some kernel => exact ⟨kernel, rfl⟩
  | none =>
    rcases h with h | h
    · simp [h]
    · simp only [h, if_true]
      split
      · exact ⟨_, rfl⟩
      · split
        · exact ⟨_, rfl⟩
        · exact ⟨_, rfl⟩

theorem launchWith_spec {c : CustomAllreduce} {force : Option Kernel} (hforce : forced c.envAlgo = .ok force)
    (hworld : c.worldSize ∈ [2, 4, 6, 8]) {dtype : Dtype} {numel : Nat} (hlen : numel % dtype.packed = 0)
    (four eight : Nat) : c.launchWith four eight dtype numel =
      .ok ((c.reduceCase force four eight (numel / dtype.packed * 16)).map fun kernel =>
        ⟨kernel, min defaultBlockLimit (cdiv (numel / dtype.packed) defaultThreads), defaultThreads,
          numel / dtype.packed⟩) := by
  unfold CustomAllreduce.launchWith
  simp only [hlen, ne_eq, not_true_eq_false, if_false, hforce, hworld, if_true]
  rfl

theorem allReduce_eq (c : CustomAllreduce) (inp : Call P) :
    ∃ four eight, c.allReduce inp = c.launchWith four eight inp.dtype inp.numel := by
  unfold CustomAllreduce.allReduce
  split
  · exact ⟨_, _, rfl⟩
  · exact ⟨_, _, rfl⟩

/-- An accepted call is launched, with all packed elements of its input. -/
theorem launchAt_accepted {k : Nat} (h : G.comm.shouldCustomAr (G.calls k) = true) :
    (G.launchAt k).size = (G.calls k).numel / (G.calls k).dtype.packed := by
  obtain ⟨hmod, hkernel⟩ := shouldCustomAr_spec h
  obtain ⟨force, hforce⟩ := G.algo_valid
  obtain ⟨four, eight, heq⟩ := allReduce_eq G.comm (G.calls k)
  obtain ⟨kernel, hk⟩ := reduceCase_isSome hkernel force four eight ((G.calls k).numel / (G.calls k).dtype.packed * 16)
  unfold Group.launchAt
  rw [heq, launchWith_spec hforce G.world_mem (packed_dvd hmod), hk]
  rfl

/-- A launch has threads, and a block when it has an element. -/
structure Launch.Wf (l : Launch) : Prop where
  threads_pos : 0 < l.threads
  blocks_pos : 0 < l.size → 0 < l.blocks

theorem launchWith_wf {c : CustomAllreduce} {force : Option Kernel} (hforce : forced c.envAlgo = .ok force)
    (hworld : c.worldSize ∈ [2, 4, 6, 8]) {four eight : Nat} {dtype : Dtype} {numel : Nat} {l : Launch}
    (h : c.launchWith four eight dtype numel = .ok (some l)) : l.Wf := by
  by_cases hlen : numel % dtype.packed = 0
  · rw [launchWith_spec hforce hworld hlen] at h
    obtain ⟨kernel, -, rfl⟩ := Option.map_eq_some_iff.mp (Except.ok.inj h)
    refine ⟨Nat.succ_pos _, fun hpos => ?_⟩
    have : 0 < cdiv (numel / dtype.packed) defaultThreads := (lt_cdiv (by decide)).mpr (by simpa using hpos)
    simp only [defaultBlockLimit]
    omega
  · unfold CustomAllreduce.launchWith at h
    simp only [ne_eq, hlen, not_false_eq_true, if_true] at h
    cases h

theorem launchAt_wf (k : Nat) : (G.launchAt k).Wf := by
  obtain ⟨force, hforce⟩ := G.algo_valid
  obtain ⟨four, eight, heq⟩ := allReduce_eq G.comm (G.calls k)
  unfold Group.launchAt
  rw [heq]
  cases h : G.comm.launchWith four eight (G.calls k).dtype (G.calls k).numel with
  | error e => exact ⟨Nat.succ_pos _, nofun⟩
  | ok l =>
    cases l with
    | none => exact ⟨Nat.succ_pos _, nofun⟩
    | some l => exact launchWith_wf hforce G.world_mem h

theorem two_le_world (G : Group P A) : 2 ≤ G.world := by
  have h := G.world_mem
  simp only [List.mem_cons, List.not_mem_nil, or_false] at h
  unfold Group.world
  omega

end

/-! ## The accesses of a block -/

theorem mem_targets {n rank R : Nat} (hn : 0 < n) : R ∈ targets n rank ↔ R < n := by
  unfold targets
  simp only [List.mem_map, List.mem_range]
  constructor
  · rintro ⟨i, -, rfl⟩
    exact Nat.mod_lt _ hn
  · intro hR
    have hlt : rank % n < n := Nat.mod_lt _ hn
    refine ⟨(R + (n - rank % n)) % n, Nat.mod_lt _ hn, ?_⟩
    rw [Nat.add_mod_mod]
    have hdm := Nat.div_add_mod rank n
    have hsplit : rank + (R + (n - rank % n)) = R + (rank / n + 1) * n := by
      rw [Nat.add_mul, Nat.one_mul, Nat.mul_comm (rank / n)]
      omega
    rw [hsplit, Nat.add_mul_mod_self_right, Nat.mod_eq_of_lt hR]

theorem targets_perm {n : Nat} (hn : 0 < n) (rank : Nat) : (targets n rank).Perm (List.range n) := by
  -- as many as there are ranks, and all ranks among them
  have hsub : List.range n ⊆ targets n rank := fun R hR => (mem_targets hn).mpr (List.mem_range.mp hR)
  have hsubperm := List.subperm_of_subset List.nodup_range hsub
  exact (hsubperm.perm_of_length_le (by simp [targets])).symm

namespace Launch

section
variable {l : Launch} {n : Nat} (hn : 0 < n)
include hn

theorem ptrs_perm (l : Launch) (rank : Nat) : (l.ptrs n rank).Perm (List.range n) := by
  unfold ptrs
  split
  · exact .refl _
  · exact targets_perm hn rank

theorem mem_program {rank b : Nat} {i : Instr} : i ∈ l.program n rank b ↔
    match i with
    | .enter _ | .update _ => True
    | .signal _ i | .wait _ i => i < n
    | .load idx R => idx ∈ l.reduced n rank b ∧ R < n
    | .store idx => idx ∈ l.reduced n rank b
    | .gather R idx => l.kernel = .twoStage ∧ idx ∈ gridElems l.threads l.blocks b 0 (l.largestPart n) ∧ R < n ∧
      (R = n - 1 ∨ idx < l.part n) := by
  have hptrs : ∀ R, R ∈ l.ptrs n rank ↔ R < n := fun R => ((l.ptrs_perm hn rank).mem_iff).trans List.mem_range
  have hgathers : ∀ i, i ∈ l.gathers n rank b → ∃ R idx, i = .gather R idx := by
    intro i hi
    unfold gathers at hi
    split at hi
    · cases hi
    · simp only [List.mem_flatMap, List.mem_map] at hi
      obtain ⟨idx, -, R, -, rfl⟩ := hi
      exact ⟨R, idx, rfl⟩
  unfold program barrier
  cases i with
  | gather R idx =>
    unfold gathers
    cases hk : l.kernel with
    | oneStage => simp
    | twoStage => simp [mem_targets hn]
  | enter p =>
    cases p with
    | _ => simp
  | update p =>
    cases p with
    | _ => simp
  | signal p j =>
    have := hgathers (.signal p j)
    cases p with
    | _ => simp_all
  | wait p j =>
    have := hgathers (.wait p j)
    cases p with
    | _ => simp_all
  | load idx R =>
    have := hgathers (.load idx R)
    simp_all
  | store idx =>
    have := hgathers (.store idx)
    simp_all

end

/-! ## The output -/

/-- The element of the output that an access writes. -/
def written (l : Launch) (n : Nat) : Instr → Option Nat
  | .store idx => if l.kernel = .oneStage then some idx else none
  | .gather R idx => some (R * l.part n + idx)
  | _ => none

theorem last_part (l : Launch) {n : Nat} (hn : 0 < n) : (n - 1) * l.part n + l.largestPart n = l.size := by
  obtain ⟨m, rfl⟩ : ∃ m, n = m + 1 := ⟨n - 1, by omega⟩
  have hdm := Nat.div_add_mod l.size (m + 1)
  unfold largestPart part
  rw [Nat.add_sub_cancel]
  rw [Nat.add_mul, Nat.one_mul] at hdm
  omega

/-- The elements of the rank that owns them: those of its part, or of the last rank's longer one. -/
theorem stop_sub_start (l : Launch) {n rank : Nat} (hn : 0 < n) :
    l.stop n rank = l.start n rank + if rank = n - 1 then l.largestPart n else l.part n := by
  unfold stop start
  split
  · rename_i hlast
    rw [hlast, l.last_part hn]
  · rfl

theorem part_inj {l : Launch} {n R R' idx idx' : Nat} (hR : R < n) (hR' : R' < n) (h : R = n - 1 ∨ idx < l.part n)
    (h' : R' = n - 1 ∨ idx' < l.part n) (heq : R * l.part n + idx = R' * l.part n + idx') : R = R' ∧ idx = idx' := by
  have key : ∀ {R R' idx idx' : Nat}, R' < n → (R = n - 1 ∨ idx < l.part n) →
      R * l.part n + idx = R' * l.part n + idx' → R' ≤ R := by
    intro R R' idx idx' hR' h heq
    by_contra hlt
    have hmul := Nat.mul_le_mul_right (l.part n) (show R + 1 ≤ R' by omega)
    rw [Nat.add_mul, Nat.one_mul] at hmul
    rcases h with h | h
    · omega
    · omega
  obtain rfl := Nat.le_antisymm (key hR h' heq.symm) (key hR' h heq)
  exact ⟨rfl, by omega⟩

theorem exists_part {l : Launch} {n idx : Nat} (hn : 0 < n) (hidx : idx < l.size) :
    ∃ R j, R < n ∧ j < l.largestPart n ∧ (R = n - 1 ∨ j < l.part n) ∧ idx = R * l.part n + j := by
  by_cases hlast : (n - 1) * l.part n ≤ idx
  · have := l.last_part hn
    exact ⟨n - 1, idx - (n - 1) * l.part n, by omega, by omega, .inl rfl, by omega⟩
  · have hpos : 0 < l.part n := Nat.pos_of_ne_zero fun h0 => by simp [h0] at hlast
    have hR : idx / l.part n < n - 1 := (Nat.div_lt_iff_lt_mul hpos).mpr (by omega)
    have hmod := Nat.mod_lt idx hpos
    have hdm := Nat.div_add_mod idx (l.part n)
    rw [Nat.mul_comm] at hdm
    refine ⟨idx / l.part n, idx % l.part n, by omega, ?_, .inr hmod, hdm.symm⟩
    unfold largestPart
    omega

theorem stop_le (l : Launch) {n rank : Nat} (hr : rank < n) : l.stop n rank ≤ l.size := by
  have hlast := l.last_part (n := n) (by omega)
  have hmul := Nat.mul_le_mul_right (l.part n) (show rank ≤ n - 1 by omega)
  unfold stop start largestPart at *
  split
  · exact Nat.le_refl _
  · omega

section
variable {l : Launch} (hl : l.Wf) {n : Nat} (hn : 0 < n)
include hl hn

theorem exists_written (rank : Nat) {idx : Nat} (hidx : idx < l.size) :
    ∃ b i, b < l.blocks ∧ i ∈ l.program n rank b ∧ l.written n i = some idx := by
  have hblocks := hl.blocks_pos (by omega)
  cases hk : l.kernel with
  | oneStage =>
    have hb : idx / l.threads % l.blocks < l.blocks := Nat.mod_lt _ hblocks
    refine ⟨idx / l.threads % l.blocks, .store idx, hb, (mem_program hn).mpr ?_, by simp [written, hk]⟩
    simp only [reduced, hk]
    exact (mem_gridElems hl.threads_pos hb).mpr ⟨Nat.zero_le _, hidx, by rw [Nat.sub_zero]⟩
  | twoStage =>
    obtain ⟨R, j, hR, hj, hpart, rfl⟩ := exists_part hn hidx
    have hb : j / l.threads % l.blocks < l.blocks := Nat.mod_lt _ hblocks
    refine ⟨j / l.threads % l.blocks, .gather R j, hb, (mem_program hn).mpr ⟨hk, ?_, hR, hpart⟩, rfl⟩
    exact (mem_gridElems hl.threads_pos hb).mpr ⟨Nat.zero_le _, hj, by rw [Nat.sub_zero]⟩

theorem written_inj {rank b b' idx : Nat} {i i' : Instr} (hb : b < l.blocks) (hb' : b' < l.blocks)
    (hi : i ∈ l.program n rank b) (hi' : i' ∈ l.program n rank b') (h : l.written n i = some idx)
    (h' : l.written n i' = some idx) : b = b' ∧ i = i' := by
  rw [mem_program hn] at hi hi'
  have hgrid : ∀ {lo hi idx}, idx ∈ gridElems l.threads l.blocks b lo hi →
      idx ∈ gridElems l.threads l.blocks b' lo hi → b = b' := by
    intro lo hi idx h h'
    rw [mem_gridElems hl.threads_pos hb] at h
    rw [mem_gridElems hl.threads_pos hb'] at h'
    exact h.2.2.symm.trans h'.2.2
  cases hk : l.kernel with
  | oneStage =>
    cases i with
    | store j =>
      cases i' with
      | store j' =>
        simp only [written, hk, if_true, Option.some.injEq] at h h'
        subst h h'
        simp only [reduced, hk] at hi hi'
        exact ⟨hgrid hi hi', rfl⟩
      | gather R' j' => simp [hk] at hi'
      | _ => cases h'
    | gather R j => simp [hk] at hi
    | _ => cases h
  | twoStage =>
    cases i with
    | gather R j =>
      cases i' with
      | gather R' j' =>
        obtain ⟨-, hj, hR, hpart⟩ := hi
        obtain ⟨-, hj', hR', hpart'⟩ := hi'
        simp only [written, Option.some.injEq] at h h'
        obtain ⟨rfl, rfl⟩ := part_inj hR hR' hpart hpart' (h.trans h'.symm)
        exact ⟨hgrid hj hj', rfl⟩
      | store j' => simp [written, hk] at h'
      | _ => cases h'
    | store j => simp [written, hk] at h
    | _ => cases h

/-- What a block gathers from `R` was reduced there by the block of the same index. -/
theorem reduced_of_gather {R b idx : Nat} (hk : l.kernel = .twoStage) (hb : b < l.blocks)
    (hidx : idx ∈ gridElems l.threads l.blocks b 0 (l.largestPart n)) (hpart : R = n - 1 ∨ idx < l.part n) :
    l.start n R + idx ∈ l.reduced n R b := by
  rw [mem_gridElems hl.threads_pos hb] at hidx
  simp only [reduced, hk]
  refine (mem_gridElems hl.threads_pos hb).mpr ⟨Nat.le_add_right _ _, ?_, ?_⟩
  · rw [l.stop_sub_start hn]
    split
    · omega
    · rename_i hne
      have := hpart.resolve_left hne
      omega
  · rw [Nat.add_sub_cancel_left]
    simpa using hidx.2.2

omit hn in
theorem lt_size_of_reduced {rank b idx : Nat} (hr : rank < n) (hb : b < l.blocks) (h : idx ∈ l.reduced n rank b) :
    idx < l.size := by
  unfold reduced at h
  split at h
  · exact ((mem_gridElems hl.threads_pos hb).mp h).2.1
  · have := l.stop_le hr
    have := ((mem_gridElems hl.threads_pos hb).mp h).2.1
    omega

omit hn in
/-- The blocks that reduce two elements into one place of the temporary buffer are the same. -/
theorem reduced_inj {rank b b' idx idx' : Nat} (hk : l.kernel = .twoStage) (hb : b < l.blocks) (hb' : b' < l.blocks)
    (h : idx ∈ l.reduced n rank b) (h' : idx' ∈ l.reduced n rank b')
    (heq : idx - l.start n rank = idx' - l.start n rank) : b = b' ∧ idx = idx' := by
  simp only [reduced, hk] at h h'
  rw [mem_gridElems hl.threads_pos hb] at h
  rw [mem_gridElems hl.threads_pos hb'] at h'
  obtain rfl : idx = idx' := by omega
  exact ⟨h.2.2.symm.trans h'.2.2, rfl⟩

end

end Launch

end VllmHcu.CustomAr
