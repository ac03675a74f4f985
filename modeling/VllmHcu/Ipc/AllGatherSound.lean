import Mathlib.Algebra.BigOperators.Ring.List
import VllmHcu.Ipc.ChunkSound
import VllmHcu.Lib.Causal

/-!
# Safety of the IPC all-gather

A rank begins a launch only after it has acquired the flags of the launch before
from every peer, so every peer has ended the launch before that, the last reader
of the slot that is written next. Each copy then reads what its source pushed in
the same call, and the gathered output is the concatenation of the rows.
-/

namespace VllmHcu.Ipc

/-! ## Accepted calls -/

theorem canGather_ok {c : IpcAllGather} {tensors : List Tensor} {sizes : List Int}
    (h : c.canGather tensors sizes = .ok true) :
    sizes.length = c.worldSize ∧ (∀ n ∈ sizes, 0 ≤ n) ∧
      (∀ t ∈ tensors, (t.shape.headD 0 : Int) = sizes.getD c.rank 0) ∧ tensors.length ≤ maxTensors ∧
      (∀ t ∈ tensors, rowBytes t % 4 = 0) ∧
      sizes.foldl max 0 * ((tensors.map rowBytes).sum : Int) ≤ c.regionElems * 4 := by
  unfold IpcAllGather.canGather at h
  split at h
  · cases h
  split at h
  · cases h
  rename_i hsizes
  split at h
  · cases h
  rename_i hinputs
  simp only [Except.ok.injEq, Bool.and_eq_true, decide_eq_true_eq, List.all_eq_true] at h
  simp only [ne_eq, List.any_eq_true, decide_eq_true_eq, not_or, not_exists, not_and, not_not, not_lt] at hsizes
  simp only [List.any_eq_true, Bool.or_eq_true, decide_eq_true_eq, not_exists, not_and, not_or, ne_eq,
    not_not] at hinputs
  exact ⟨hsizes.1, hsizes.2, fun t ht => (hinputs t ht).1.2, h.1.1.2, h.1.2, h.2⟩

theorem le_foldl_max : ∀ {l : List Int} {m : Int}, m ≤ l.foldl max m ∧ ∀ n ∈ l, n ≤ l.foldl max m
  | [], m => ⟨le_refl m, nofun⟩
  | a :: l, m => by
    obtain ⟨hm, hl⟩ := le_foldl_max (l := l) (m := max m a)
    refine ⟨(le_max_left m a).trans hm, fun n hn => ?_⟩
    rcases List.mem_cons.mp hn with rfl | hn
    · exact (le_max_right m n).trans hm
    · exact hl n hn

section
variable {G : Group} {c : Call}

theorem Group.Accepts.sameLayout (h : G.Accepts c) {r : Nat} (hr : r < G.world) :
    Args.SameLayout (IpcAllGather.launchArgs (c.tensors r) c.sizes) (IpcAllGather.launchArgs (c.tensors 0) c.sizes) := by
  have hlen : (c.tensors r).length = (c.tensors 0).length := by
    simpa using congrArg List.length (h.layout r hr)
  have hwidths : (c.tensors r).map (fun t => rowBytes t / 4) = (c.tensors 0).map fun t => rowBytes t / 4 := by
    have := congrArg (List.map fun b => b / 4) (h.layout r hr)
    simpa [List.map_map, Function.comp_def] using this
  exact ⟨rfl, by simp [IpcAllGather.launchArgs, hwidths, hlen]⟩

theorem Group.Accepts.rows_eq (h : G.Accepts c) {r : Nat} (hr : r < G.world) (tensors : List Tensor) :
    ((IpcAllGather.launchArgs tensors c.sizes).rows r : Int) = c.sizes.getD r 0 := by
  obtain ⟨hlen, hnonneg, -⟩ := canGather_ok (h.canGather r hr)
  have hr' : r < c.sizes.length := by
    rw [hlen]
    exact hr
  have hmem := hnonneg _ (List.getElem_mem hr')
  simp only [Args.rows, IpcAllGather.launchArgs, List.getD_eq_getElem?_getD]
  rw [List.getElem?_append_left (by simpa using hr'), List.getElem?_map, List.getElem?_eq_getElem hr']
  simp [hmem]

theorem Group.Accepts.fits (h : G.Accepts c) (hw : 0 < G.world) :
    (IpcAllGather.launchArgs (c.tensors 0) c.sizes).Fits G.world G.regionElems := by
  intro r hr
  obtain ⟨hlen, hnonneg, -, hle, hrow, hcap⟩ := canGather_ok (h.canGather 0 hw)
  have hrows := h.rows_eq hr (c.tensors 0)
  have hr' : r < c.sizes.length := by
    rw [hlen]
    exact hr
  have hmax : c.sizes.getD r 0 ≤ c.sizes.foldl max 0 := by
    rw [List.getD_eq_getElem?_getD, List.getElem?_eq_getElem hr']
    exact le_foldl_max.2 _ (List.getElem_mem hr')
  have hwidths : (IpcAllGather.launchArgs (c.tensors 0) c.sizes).widths.sum * 4 = ((c.tensors 0).map rowBytes).sum := by
    simp only [IpcAllGather.launchArgs, List.sum_append, List.sum_replicate, nsmul_zero, Nat.add_zero]
    rw [← List.sum_map_mul_right]
    congr 1
    refine List.map_congr_left fun t ht => ?_
    have := hrow t ht
    omega
  have htake : (IpcAllGather.launchArgs (c.tensors 0) c.sizes).widths.take maxTensors =
      (IpcAllGather.launchArgs (c.tensors 0) c.sizes).widths := by
    refine List.take_of_length_le ?_
    simp only [IpcAllGather.launchArgs, List.length_append, List.length_map, List.length_replicate]
    omega
  unfold Args.tOff
  rw [htake, List.sum_map_mul_left, List.map_id']
  have hprod : ((IpcAllGather.launchArgs (c.tensors 0) c.sizes).rows r : Int) *
      ((c.tensors 0).map rowBytes).sum ≤ c.sizes.foldl max 0 * ((c.tensors 0).map rowBytes).sum := by
    rw [hrows]
    exact mul_le_mul_of_nonneg_right hmax (Int.natCast_nonneg _)
  have hfour : (IpcAllGather.launchArgs (c.tensors 0) c.sizes).rows r *
      (IpcAllGather.launchArgs (c.tensors 0) c.sizes).widths.sum * 4 ≤ G.regionElems * 4 := by
    rw [Nat.mul_assoc, hwidths]
    have := hprod.trans hcap
    exact_mod_cast this
  exact Nat.le_of_mul_le_mul_right hfour (by decide)

theorem getD_map {α β : Type} (f : α → β) {l : List α} {i : Nat} {x : α} (h : l[i]? = some x) (l' : List β) (d : β) :
    (l.map f ++ l').getD i d = f x := by
  have hi := (List.getElem?_eq_some_iff.mp h).1
  rw [List.getD_eq_getElem?_getD, List.getElem?_append_left (by simpa using hi), List.getElem?_map, h]
  rfl

theorem Group.Accepts.tensor (h : G.Accepts c) {r t : Nat} (hr : r < G.world) {T : Tensor}
    (hT : (c.tensors r)[t]? = some T) :
    (IpcAllGather.launchArgs (c.tensors r) c.sizes).ins.getD t [] = T.words ∧
      T.words.length = (IpcAllGather.launchArgs (c.tensors r) c.sizes).rows r *
        (IpcAllGather.launchArgs (c.tensors r) c.sizes).width t := by
  obtain ⟨-, -, hhead, -, hrow, -⟩ := canGather_ok (h.canGather r hr)
  have hm : T ∈ c.tensors r := List.mem_of_getElem? hT
  have hrows : T.shape.headD 0 = (IpcAllGather.launchArgs (c.tensors r) c.sizes).rows r := by
    have := (hhead T hm).trans (h.rows_eq hr (c.tensors r)).symm
    exact_mod_cast this
  have hwidth : (IpcAllGather.launchArgs (c.tensors r) c.sizes).width t = rowBytes T / 4 := getD_map _ hT _ _
  refine ⟨getD_map _ hT _ _, ?_⟩
  have hpacked : T.words.length * 4 = T.shape.headD 0 * rowBytes T := h.packed r hr T hm
  have hfour : rowBytes T = rowBytes T / 4 * 4 := by
    have := hrow T hm
    omega
  rw [hrows, hfour, ← Nat.mul_assoc] at hpacked
  rw [hwidth]
  exact Nat.eq_of_mul_eq_mul_right (by decide) hpacked

end

/-! ## Events and what they wait for -/

theorem mem_peers {world rank r : Nat} : r ∈ peers world rank ↔ r < world ∧ r ≠ rank := by simp [peers]

section
variable {g : Grid} {world : Nat} {a : Args} {rank pid : Nat}

theorem begin_mem_kernel : .begin ∈ kernel g world a rank pid := List.mem_cons_self

theorem own_mem_kernel {t idx : Nat} : .own t idx ∈ kernel g world a rank pid ↔ (t, idx) ∈ moved g a rank pid := by
  simp [kernel]

theorem push_mem_kernel {r t idx : Nat} : .push r t idx ∈ kernel g world a rank pid ↔
    r ∈ peers world rank ∧ (t, idx) ∈ moved g a rank pid := by
  simp only [kernel, List.mem_cons, List.mem_append, List.mem_flatMap, List.mem_map, reduceCtorEq, false_or, or_false,
    Instr.push.injEq, and_false, exists_false]
  constructor
  · rintro ⟨⟨t', idx'⟩, hm, r', hr, rfl, rfl, rfl⟩
    exact ⟨hr, hm⟩
  · rintro ⟨hr, hm⟩
    exact ⟨(t, idx), hm, r, hr, rfl, rfl, rfl⟩

theorem release_mem_kernel {r : Nat} : .release r ∈ kernel g world a rank pid ↔ r ∈ peers world rank := by
  simp [kernel]

theorem acquire_mem_kernel {r : Nat} : .acquire r ∈ kernel g world a rank pid ↔ r ∈ peers world rank := by
  simp [kernel]

theorem copy_mem_kernel {r t idx : Nat} : .copy r t idx ∈ kernel g world a rank pid ↔
    r ∈ peers world rank ∧ (t, idx) ∈ moved g a r pid := by
  simp only [kernel, List.mem_cons, List.mem_append, List.mem_flatMap, List.mem_map, reduceCtorEq, false_or,
    Instr.copy.injEq, and_false, exists_false]
  constructor
  · rintro ⟨r', hr, ⟨t', idx'⟩, hm, rfl, rfl, rfl⟩
    exact ⟨hr, hm⟩
  · rintro ⟨hr, hm⟩
    exact ⟨r, hr, (t, idx), hm, rfl, rfl, rfl⟩

theorem mem_kernel {i : Instr} :
    i ∈ kernel g world a rank pid ↔
      match i with
      | .begin => True
      | .own t idx => (t, idx) ∈ moved g a rank pid
      | .push r t idx => r ∈ peers world rank ∧ (t, idx) ∈ moved g a rank pid
      | .release r | .acquire r => r ∈ peers world rank
      | .copy r t idx => r ∈ peers world rank ∧ (t, idx) ∈ moved g a r pid := by
  cases i with
  | begin => exact iff_of_true begin_mem_kernel trivial
  | own t idx => exact own_mem_kernel
  | push r t idx => exact push_mem_kernel
  | release r => exact release_mem_kernel
  | acquire r => exact acquire_mem_kernel
  | copy r t idx => exact copy_mem_kernel

end

namespace Group

section
variable {G : Group}

theorem mem_program {r k pid : Nat} {e : Event} : e ∈ G.program r k pid ↔
    e.rank = r ∧ e.launch = k ∧ e.pid = pid ∧ e.instr ∈ kernel G.grid G.world (G.argsAt k r) r pid := by
  unfold program
  rw [List.mem_map]
  constructor
  · rintro ⟨i, hi, rfl⟩
    exact ⟨rfl, rfl, rfl, hi⟩
  · rintro ⟨rfl, rfl, rfl, hi⟩
    exact ⟨e.instr, hi, rfl⟩

theorem mem_launch {r k : Nat} {e : Event} : e ∈ G.launch r k ↔
    e.rank = r ∧ e.launch = k ∧ e.pid < G.grid.nprog ∧ e.instr ∈ kernel G.grid G.world (G.argsAt k r) r e.pid := by
  unfold launch
  simp only [List.mem_flatMap, List.mem_range, mem_program]
  constructor
  · rintro ⟨pid, hpid, hr, hk, rfl, hi⟩
    exact ⟨hr, hk, hpid, hi⟩
  · rintro ⟨hr, hk, hpid, hi⟩
    exact ⟨e.pid, hpid, hr, hk, rfl, hi⟩

theorem mem_events {e : Event} : e ∈ G.events ↔ e.rank < G.world ∧ e.launch < G.calls.length ∧
    e.pid < G.grid.nprog ∧ e.instr ∈ kernel G.grid G.world (G.argsAt e.launch e.rank) e.rank e.pid := by
  unfold events
  simp only [List.mem_flatMap, List.mem_range, mem_launch]
  constructor
  · rintro ⟨r, hr, k, hk, rfl, rfl, h⟩
    exact ⟨hr, hk, h⟩
  · rintro ⟨hr, hk, h⟩
    exact ⟨e.rank, hr, e.launch, hk, rfl, rfl, h⟩

/-- What an event waits for: the order on its rank, and for an acquire its release. -/
def pre (G : Group) (e' e : Event) : Prop :=
  e' ∈ G.prior e ∨ ∃ peer, e.instr = .acquire peer ∧ e' = ⟨peer, e.launch, e.pid, .release e.rank⟩

theorem mem_prior {e e' : Event} : e' ∈ G.prior e ↔
    (e.instr = .begin ∧ ∃ k, e.launch = k + 1 ∧ e' ∈ G.launch e.rank k) ∨
      (e.instr ≠ .begin ∧ e' ∈ G.program e.rank e.launch e.pid ∧ fenced e'.instr e.instr = true) := by
  obtain ⟨r, k, pid, i⟩ := e
  have hfenced : ∀ {i : Instr}, i ≠ .begin →
      G.prior ⟨r, k, pid, i⟩ = (G.program r k pid).filter fun e' => fenced e'.instr i := by
    intro i hi
    cases i with
    | begin => exact absurd rfl hi
    | _ => rfl
  by_cases hi : i = .begin
  · subst hi
    cases k with
    | zero =>
      change e' ∈ [] ↔ _
      simp
    | succ k =>
      change e' ∈ G.launch r k ↔ _
      simp
  · rw [hfenced hi, List.mem_filter]
    simp [hi]

theorem prior_begin {r k pid : Nat} {e : Event} (he : e ∈ G.launch r k) : e ∈ G.prior ⟨r, k + 1, pid, .begin⟩ :=
  mem_prior.mpr (.inl ⟨rfl, k, rfl, he⟩)

theorem prior_fenced {r k pid : Nat} {i i' : Instr} (hi : i ≠ .begin)
    (hi' : i' ∈ kernel G.grid G.world (G.argsAt k r) r pid) (hf : fenced i' i = true) :
    (⟨r, k, pid, i'⟩ : Event) ∈ G.prior ⟨r, k, pid, i⟩ :=
  mem_prior.mpr (.inr ⟨hi, mem_program.mpr ⟨rfl, rfl, rfl, hi'⟩, hf⟩)

theorem begin_prior {r k pid : Nat} {i : Instr} (hi : i ≠ .begin) :
    (⟨r, k, pid, .begin⟩ : Event) ∈ G.prior ⟨r, k, pid, i⟩ := by
  refine prior_fenced hi begin_mem_kernel ?_
  cases i with
  | begin => exact absurd rfl hi
  | _ => rfl

theorem pre_mem_events {e e' : Event} (h : G.pre e' e) (he : e ∈ G.events) : e' ∈ G.events := by
  obtain ⟨hr, hk, hpid, hi⟩ := mem_events.mp he
  rcases h with h | ⟨peer, hacq, rfl⟩
  · rcases mem_prior.mp h with ⟨-, k, hk', hm⟩ | ⟨-, hm, -⟩
    · obtain ⟨hr', hl, hp, hi'⟩ := mem_launch.mp hm
      rw [mem_events, hr', hl]
      exact ⟨hr, by omega, hp, hi'⟩
    · obtain ⟨hr', hl, hp, hi'⟩ := mem_program.mp hm
      rw [mem_events, hr', hl, hp]
      exact ⟨hr, hk, hpid, hi'⟩
  · rw [hacq, acquire_mem_kernel] at hi
    obtain ⟨hpeer, hne⟩ := mem_peers.mp hi
    refine mem_events.mpr ⟨hpeer, hk, hpid, release_mem_kernel.mpr ?_⟩
    exact mem_peers.mpr ⟨hr, hne.symm⟩

def Instr.phase : Instr → Nat
  | .begin => 0
  | .own .. | .push .. => 1
  | .release _ => 2
  | .acquire _ => 3
  | .copy .. => 4

/-- Grows along the order of events. -/
def stage (e : Event) : Nat := e.launch * 5 + Instr.phase e.instr

theorem fenced_phase {i i' : Instr} (h : fenced i i' = true) : Instr.phase i < Instr.phase i' := by
  cases i with
  | _ => cases i' with
    | _ =>
      first
      | exact absurd h Bool.false_ne_true
      | exact Nat.le_of_ble_eq_true rfl

theorem pre_stage {e e' : Event} (h : G.pre e' e) : stage e' < stage e := by
  unfold stage
  rcases h with h | ⟨peer, hi, rfl⟩
  · rcases mem_prior.mp h with ⟨-, k, hk, hm⟩ | ⟨-, hm, hf⟩
    · obtain ⟨-, hl, -, -⟩ := mem_launch.mp hm
      have : Instr.phase e'.instr ≤ 4 := by
        cases e'.instr with
        | _ => simp [Instr.phase]
      omega
    · obtain ⟨-, hl, -, -⟩ := mem_program.mp hm
      have := fenced_phase hf
      omega
  · simp [hi, Instr.phase]

/-! ## The order of launches -/

theorem launch_before {e e' : Event} (he : e ∈ G.events) (hr : e'.rank = e.rank) (hlt : e.launch < e'.launch) :
    Relation.TransGen G.pre e e' := by
  obtain ⟨-, -, hpid, hi⟩ := mem_events.mp he
  obtain ⟨r', k', pid', i'⟩ := e'
  dsimp only at hr hlt
  subst hr
  -- to the begin of any program of a later launch
  have hbegin : ∀ {k : Nat}, e.launch < k → ∀ pid, Relation.TransGen G.pre e ⟨e.rank, k, pid, .begin⟩ := by
    intro k hlt
    induction hlt with
    | refl => exact fun pid => .single (.inl (prior_begin (mem_launch.mpr ⟨rfl, rfl, hpid, hi⟩)))
    | @step k _ ih =>
      refine fun pid => (ih 0).tail (.inl (prior_begin (mem_launch.mpr ⟨rfl, rfl, G.grid.nprog_pos, ?_⟩)))
      exact begin_mem_kernel
  by_cases hb : i' = .begin
  · rw [hb]
    exact hbegin hlt pid'
  · exact (hbegin hlt pid').tail (.inl (begin_prior hb))

theorem peer_before {e e' : Event} (he : e ∈ G.events) (he' : e' ∈ G.events) (hne : e.rank ≠ e'.rank)
    (hlt : e.launch + 1 < e'.launch) : Relation.TransGen G.pre e e' := by
  obtain ⟨hr, -, -, -⟩ := mem_events.mp he
  obtain ⟨hr', hk', -, -⟩ := mem_events.mp he'
  have hacq : (⟨e'.rank, e.launch + 1, 0, .acquire e.rank⟩ : Event) ∈ G.events := by
    refine mem_events.mpr ⟨hr', hlt.trans hk', G.grid.nprog_pos, acquire_mem_kernel.mpr ?_⟩
    exact mem_peers.mpr ⟨hr, hne⟩
  have h₁ : Relation.TransGen G.pre e ⟨e.rank, e.launch + 1, 0, .release e'.rank⟩ :=
    launch_before he rfl (Nat.lt_succ_self _)
  have h₂ : G.pre ⟨e.rank, e.launch + 1, 0, .release e'.rank⟩ ⟨e'.rank, e.launch + 1, 0, .acquire e.rank⟩ :=
    .inr ⟨e.rank, rfl, rfl⟩
  exact (h₁.tail h₂).trans (launch_before hacq rfl hlt)

/-! ## What a copy reads -/

/-- What an event stores into the buffers, by rank and element. -/
def writes (G : Group) (e : Event) (loc : Nat × Nat) : Option Word :=
  match e.instr with
  | .push peer t idx =>
    let a := G.argsAt e.launch e.rank
    if loc = (peer, G.slotElem a e.launch e.rank t idx) then some (a.input t idx) else none
  | _ => none

theorem writes_ne_none {e : Event} {loc : Nat × Nat} (h : G.writes e loc ≠ none) : ∃ peer t idx,
    e.instr = .push peer t idx ∧ loc = (peer, G.slotElem (G.argsAt e.launch e.rank) e.launch e.rank t idx) := by
  unfold writes at h
  split at h
  · rename_i peer t idx hi
    dsimp only at h
    split at h
    · exact ⟨peer, t, idx, hi, ‹_›⟩
    · exact absurd rfl h
  · exact absurd rfl h

theorem writes_push {r k pid peer t idx : Nat} :
    G.writes ⟨r, k, pid, .push peer t idx⟩ (peer, G.slotElem (G.argsAt k r) k r t idx) =
      some ((G.argsAt k r).input t idx) := if_pos rfl

variable (hacc : ∀ c ∈ G.calls, G.Accepts c)
include hacc

theorem exists_call {k : Nat} (hk : k < G.calls.length) :
    ∃ c, G.calls[k]? = some c ∧ G.Accepts c ∧ ∀ r, G.argsAt k r = IpcAllGather.launchArgs (c.tensors r) c.sizes := by
  refine ⟨G.calls[k], List.getElem?_eq_getElem hk, hacc _ (List.getElem_mem hk), fun r => ?_⟩
  simp [argsAt, List.getD_eq_getElem?_getD, List.getElem?_eq_getElem hk]

theorem sameLayout {k r r' : Nat} (hk : k < G.calls.length) (hr : r < G.world) (hr' : r' < G.world) :
    Args.SameLayout (G.argsAt k r) (G.argsAt k r') := by
  obtain ⟨c, -, hc, hargs⟩ := exists_call hacc hk
  have h := hc.sameLayout hr
  have h' := hc.sameLayout hr'
  rw [hargs r, hargs r']
  exact ⟨h.sizes.trans h'.sizes.symm, h.widths.trans h'.widths.symm⟩

theorem offset_lt {k r r' t idx pid : Nat} (hk : k < G.calls.length) (hr : r < G.world) (hr' : r' < G.world)
    (hm : (t, idx) ∈ moved G.grid (G.argsAt k r) r' pid) : (G.argsAt k r).tOff r' t + idx < G.regionElems := by
  have hw : 0 < G.world := by omega
  obtain ⟨c, -, hc, hargs⟩ := exists_call hacc hk
  have hs := sameLayout hacc hk hr hw
  rw [hs.tOff r' t]
  rw [hs.moved] at hm
  refine Args.Fits.lt ?_ hr' hm
  rw [hargs 0]
  exact hc.fits hw

/-- Of all stores into an element of a buffer, a copy reads that of its own call. -/
theorem copy_reads {h : List Event} {init : Nat × Nat → Word} (hc : Causal G.pre h)
    (hev : ∀ e ∈ h, e ∈ G.events) {r k pid R t idx : Nat}
    (he : (⟨r, k, pid, .copy R t idx⟩ : Event) ∈ G.events) (hnew : (⟨r, k, pid, .copy R t idx⟩ : Event) ∉ h)
    (hready : ∀ e', G.pre e' ⟨r, k, pid, .copy R t idx⟩ → e' ∈ h) :
    (⟨R, k, pid, .push r t idx⟩ : Event) ∈ h ∧
      memory G.writes init h (r, G.slotElem (G.argsAt k r) k R t idx) = (G.argsAt k R).input t idx := by
  obtain ⟨hr, hk, hpid, hi⟩ := mem_events.mp he
  dsimp only at hr hk hpid hi
  rw [copy_mem_kernel] at hi
  obtain ⟨hR, hm⟩ := hi
  obtain ⟨hRw, hne⟩ := mem_peers.mp hR
  have hs := sameLayout hacc hk hr hRw
  have hloc : G.slotElem (G.argsAt k r) k R t idx = G.slotElem (G.argsAt k R) k R t idx := by
    unfold slotElem
    rw [hs.tOff]
  have hm' : (t, idx) ∈ moved G.grid (G.argsAt k R) R pid := hs.moved G.grid R pid ▸ hm
  -- the push comes before its release, which the acquire has seen
  have hacq : (⟨r, k, pid, .acquire R⟩ : Event) ∈ h :=
    hready _ (.inl (prior_fenced nofun (acquire_mem_kernel.mpr hR) (by simp [fenced])))
  have hrel : (⟨R, k, pid, .release r⟩ : Event) ∈ h := hc.mem_of_pre (.inr ⟨R, rfl, rfl⟩) hacq
  have hpush : (⟨R, k, pid, .push r t idx⟩ : Event) ∈ h := by
    have hpeer : r ∈ peers G.world R := mem_peers.mpr ⟨hr, hne.symm⟩
    exact hc.mem_of_pre (.inl (prior_fenced (i := .release r) nofun (push_mem_kernel.mpr ⟨hpeer, hm'⟩) rfl)) hrel
  refine ⟨hpush, hc.read_eq hnew hpush (by rw [hloc]; exact writes_push) fun w' hw' hsome => ?_⟩
  obtain ⟨peer, t', idx', hi', hloc'⟩ := writes_ne_none hsome
  obtain ⟨rfl, haddr⟩ := Prod.mk.inj hloc'
  obtain ⟨hr', hk', -, hin'⟩ := mem_events.mp (hev w' hw')
  rw [hi', push_mem_kernel] at hin'
  rw [hloc] at haddr
  obtain ⟨hpar, hrank, hoff⟩ := slotElem_inj hRw hr' (offset_lt hacc hk hRw hRw hm')
    (offset_lt hacc hk' hr' hr' hin'.2) haddr
  rcases Nat.lt_trichotomy w'.launch k with hlt | heq | hgt
  · exact .inr (.inl (launch_before (hev w' hw') hrank hlt))
  · obtain ⟨r₁, k₁, pid₁, i₁⟩ := w'
    dsimp only at hrank heq hi' hoff hin'
    subst hrank heq hi'
    obtain ⟨rfl, rfl⟩ := Args.tOff_inj (Grid.lt_of_mem_chunkElems (mem_moved.mp hm').2)
      (Grid.lt_of_mem_chunkElems (mem_moved.mp hin'.2).2) hoff
    obtain rfl := moved_inj hm' hin'.2
    exact .inl rfl
  · refine .inr (.inr (peer_before he (hev w' hw') ?_ ?_))
    · rw [← hrank]
      exact hne.symm
    · dsimp only
      omega

/-! ## The invariant -/

omit hacc

/-- The element that an event moves to its output, with the rank whose row it is. -/
def moves (e : Event) : Option (Nat × Nat × Nat) :=
  match e.instr with
  | .own t idx => some (e.rank, t, idx)
  | .copy R t idx => some (R, t, idx)
  | _ => none

theorem moves_moved {e : Event} (he : e ∈ G.events) {R t idx : Nat} (hm : moves e = some (R, t, idx)) :
    R < G.world ∧ (t, idx) ∈ moved G.grid (G.argsAt e.launch e.rank) R e.pid := by
  obtain ⟨r, k, pid, i⟩ := e
  obtain ⟨hr, -, -, hi⟩ := mem_events.mp he
  rw [mem_kernel] at hi
  cases i with
  | own t' idx' =>
    cases hm
    exact ⟨hr, hi⟩
  | copy R' t' idx' =>
    cases hm
    exact ⟨(mem_peers.mp hi.1).1, hi.2⟩
  | _ => cases hm

structure Inv (G : Group) (init : Nat × Nat → Word) (s : Buffers) : Prop where
  causal : Causal G.pre s.hist
  events : ∀ e ∈ s.hist, e ∈ G.events
  cnt : ∀ r pid k, (⟨r, k, pid, .begin⟩ : Event) ∈ s.hist ↔ k < s.cnt (r, pid)
  call : ∀ r pid k, (⟨r, k, pid, .begin⟩ : Event) ∈ s.hist → s.call (r, k, pid) = k
  flags : ∀ r pid peer k, pid < G.grid.nprog →
    ((⟨r, k, pid, .release peer⟩ : Event) ∈ s.hist ↔ k < s.flags (peer, r * G.grid.nprog + pid))
  data : s.data = memory G.writes init s.hist
  out : ∀ e ∈ s.hist, ∀ R t idx, moves e = some (R, t, idx) →
    s.out (e.rank, e.launch, t, (G.argsAt e.launch e.rank).start R * (G.argsAt e.launch e.rank).width t + idx) =
      some ((G.argsAt e.launch R).input t idx)

theorem inv_initial (init : Nat × Nat → Word) : Inv G init { data := init } :=
  ⟨.nil, nofun, by simp, nofun, by simp, rfl, nofun⟩

theorem step_spec {s s' : Buffers} {e : Event} (h : G.step s e = some s') :
    e ∈ G.events ∧ e ∉ s.hist ∧ (∀ e' ∈ G.prior e, e' ∈ s.hist) ∧ G.enabled s e = true ∧ s' = G.perform s e := by
  unfold step at h
  split at h
  · rename_i hen
    cases h
    exact ⟨hen.1, hen.2.1, hen.2.2.1, hen.2.2.2, rfl⟩
  · cases h

theorem perform_hist (s : Buffers) (e : Event) : (G.perform s e).hist = e :: s.hist := by
  obtain ⟨r, k, pid, i⟩ := e
  cases i with
  | _ => rfl

section
variable {init : Nat × Nat → Word} {s : Buffers} (h : Inv G init s)
include h

/-- An enabled event waits for nothing any more, its release included. -/
theorem Inv.ready {e : Event} (he : e ∈ G.events) (hprior : ∀ e' ∈ G.prior e, e' ∈ s.hist)
    (hen : G.enabled s e = true) : ∀ e', G.pre e' e → e' ∈ s.hist := by
  rintro e' (hpre | ⟨peer, hi, rfl⟩)
  · exact hprior e' hpre
  · obtain ⟨r, k, pid, i⟩ := e
    dsimp only at hi
    subst hi
    have hcall := h.call r pid k (hprior _ (begin_prior nofun))
    simp only [enabled, hcall, decide_eq_true_eq] at hen
    exact (h.flags peer pid r k (mem_events.mp he).2.2.1).mpr hen

theorem Inv.enabled_of_ready {e : Event} (he : e ∈ G.events) (hready : ∀ e', G.pre e' e → e' ∈ s.hist) :
    G.enabled s e = true := by
  obtain ⟨r, k, pid, i⟩ := e
  cases i with
  | acquire peer =>
    have hcall := h.call r pid k (hready _ (.inl (begin_prior nofun)))
    have hrel := hready ⟨peer, k, pid, .release r⟩ (.inr ⟨peer, rfl, rfl⟩)
    simp only [enabled, hcall, decide_eq_true_eq]
    exact (h.flags peer pid r k (mem_events.mp he).2.2.1).mp hrel
  | _ => rfl

theorem Inv.earlier {r k pid : Nat} {i : Instr} (he : (⟨r, k, pid, i⟩ : Event) ∈ G.events)
    (hall : ∀ a, i ∈ kernel G.grid G.world a r pid)
    (hready : ∀ e', G.pre e' ⟨r, k, pid, i⟩ → e' ∈ s.hist) : ∀ j < k, (⟨r, j, pid, i⟩ : Event) ∈ s.hist := by
  intro j hj
  obtain ⟨hr, hk, hpid, -⟩ := mem_events.mp he
  refine h.causal.mem_of_ready hready (launch_before ?_ rfl hj)
  exact mem_events.mpr ⟨hr, hj.trans hk, hpid, hall _⟩

theorem Inv.cnt_step {e : Event} (he : e ∈ G.events) (hnew : e ∉ s.hist)
    (hready : ∀ e', G.pre e' e → e' ∈ s.hist) (r pid k : Nat) :
    (⟨r, k, pid, .begin⟩ : Event) ∈ e :: s.hist ↔ k < (G.perform s e).cnt (r, pid) := by
  obtain ⟨r₀, k₀, pid₀, i⟩ := e
  cases i with
  | begin =>
    by_cases hkey : (r, pid) = (r₀, pid₀)
    · cases hkey
      have hcounted := counted_cons (f := fun j => (⟨r, j, pid, .begin⟩ : Event)) (fun a b hab => by cases hab; rfl)
        (fun j => h.cnt r pid j) hnew (h.earlier he (fun _ => begin_mem_kernel) hready)
      simpa [perform] using hcounted.2 k
    · have hne : (⟨r, k, pid, .begin⟩ : Event) ≠ ⟨r₀, k₀, pid₀, .begin⟩ := fun heq => by
        cases heq
        exact hkey rfl
      simp only [List.mem_cons, hne, false_or, perform, Function.update_of_ne hkey]
      exact h.cnt r pid k
  | _ => simpa [perform] using h.cnt r pid k

theorem Inv.call_step {e : Event} (he : e ∈ G.events) (hnew : e ∉ s.hist)
    (hready : ∀ e', G.pre e' e → e' ∈ s.hist) (r pid k : Nat)
    (hm : (⟨r, k, pid, .begin⟩ : Event) ∈ e :: s.hist) : (G.perform s e).call (r, k, pid) = k := by
  obtain ⟨r₀, k₀, pid₀, i⟩ := e
  cases i with
  | begin =>
    by_cases hkey : (r, k, pid) = (r₀, k₀, pid₀)
    · cases hkey
      have hcounted := counted_cons (f := fun j => (⟨r, j, pid, .begin⟩ : Event)) (fun a b hab => by cases hab; rfl)
        (fun j => h.cnt r pid j) hnew (h.earlier he (fun _ => begin_mem_kernel) hready)
      simpa [perform] using hcounted.1.symm
    · have hne : (⟨r, k, pid, .begin⟩ : Event) ≠ ⟨r₀, k₀, pid₀, .begin⟩ := fun heq => by
        cases heq
        exact hkey rfl
      simp only [List.mem_cons, hne, false_or] at hm
      simp only [perform, Function.update_of_ne hkey]
      exact h.call r pid k hm
  | _ =>
    refine h.call r pid k ?_
    simpa using hm

theorem Inv.flags_step {e : Event} (he : e ∈ G.events) (hnew : e ∉ s.hist)
    (hready : ∀ e', G.pre e' e → e' ∈ s.hist) (r pid peer k : Nat) (hpid : pid < G.grid.nprog) :
    (⟨r, k, pid, .release peer⟩ : Event) ∈ e :: s.hist ↔
      k < (G.perform s e).flags (peer, r * G.grid.nprog + pid) := by
  obtain ⟨r₀, k₀, pid₀, i⟩ := e
  cases i with
  | release peer₀ =>
    obtain ⟨-, -, hpid₀, hi⟩ := mem_events.mp he
    by_cases hkey : (peer, r * G.grid.nprog + pid) = (peer₀, r₀ * G.grid.nprog + pid₀)
    · -- a flag belongs to one program of one source
      obtain ⟨rfl, hidx⟩ := Prod.mk.inj hkey
      obtain rfl : r = r₀ := by
        have := congrArg (· / G.grid.nprog) hidx
        simpa [block_div hpid, block_div hpid₀] using this
      obtain rfl : pid = pid₀ := by omega
      have hcounted := counted_cons (f := fun j => (⟨r, j, pid, .release peer⟩ : Event))
        (fun a b hab => by cases hab; rfl) (fun j => h.flags r pid peer j hpid) hnew
        (h.earlier he (fun _ => release_mem_kernel.mpr (release_mem_kernel.mp hi)) hready)
      simpa [perform] using hcounted.2 k
    · have hne : (⟨r, k, pid, .release peer⟩ : Event) ≠ ⟨r₀, k₀, pid₀, .release peer₀⟩ := fun heq => by
        cases heq
        exact hkey rfl
      simp only [List.mem_cons, hne, false_or, perform, Function.update_of_ne hkey]
      exact h.flags r pid peer k hpid
  | _ => simpa [perform] using h.flags r pid peer k hpid

theorem Inv.data_step {e : Event} (hready : ∀ e', G.pre e' e → e' ∈ s.hist) :
    (G.perform s e).data = memory G.writes init (e :: s.hist) := by
  obtain ⟨r, k, pid, i⟩ := e
  funext loc
  cases i with
  | push peer t idx =>
    have hcall := h.call r pid k (hready _ (.inl (begin_prior nofun)))
    simp only [perform, memory, writes, hcall, ← h.data]
    by_cases hloc : loc = (peer, G.slotElem (G.argsAt k r) k r t idx)
    · rw [hloc, Function.update_self, if_pos rfl, Option.getD_some]
    · rw [Function.update_of_ne hloc, if_neg hloc, Option.getD_none]
  | _ => simp [perform, memory, writes, ← h.data]

/-- What an event moves to its output is the element of the rank whose row it is. -/
theorem Inv.out_self (hacc : ∀ c ∈ G.calls, G.Accepts c) {e : Event} (he : e ∈ G.events) (hnew : e ∉ s.hist)
    (hready : ∀ e', G.pre e' e → e' ∈ s.hist) {R t idx : Nat} (hm : moves e = some (R, t, idx)) :
    (G.perform s e).out = Function.update s.out
      (e.rank, e.launch, t, (G.argsAt e.launch e.rank).start R * (G.argsAt e.launch e.rank).width t + idx)
      (some ((G.argsAt e.launch R).input t idx)) := by
  obtain ⟨r, k, pid, i⟩ := e
  cases i with
  | own t' idx' =>
    cases hm
    rfl
  | copy R' t' idx' =>
    cases hm
    have hcall := h.call r pid k (hready _ (.inl (begin_prior nofun)))
    have hread : memory G.writes init s.hist (r, G.slotElem (G.argsAt k r) k R t idx) = (G.argsAt k R).input t idx :=
      (copy_reads hacc h.causal h.events he hnew hready).2
    rw [← h.data] at hread
    simp only [perform, hcall, hread]
  | _ => cases hm

theorem Inv.out_step (hacc : ∀ c ∈ G.calls, G.Accepts c) {e : Event} (he : e ∈ G.events) (hnew : e ∉ s.hist)
    (hready : ∀ e', G.pre e' e → e' ∈ s.hist) : ∀ e' ∈ e :: s.hist, ∀ R t idx, moves e' = some (R, t, idx) →
      (G.perform s e).out
        (e'.rank, e'.launch, t, (G.argsAt e'.launch e'.rank).start R * (G.argsAt e'.launch e'.rank).width t + idx) =
        some ((G.argsAt e'.launch R).input t idx) := by
  intro e' he' R t idx hm
  rcases List.mem_cons.mp he' with rfl | he'
  · rw [h.out_self hacc he hnew hready hm, Function.update_self]
  have hold := h.out e' he' R t idx hm
  cases hmoves : moves e with
  | none =>
    have hout : (G.perform s e).out = s.out := by
      obtain ⟨r, k, pid, i⟩ := e
      cases i with
      | own t idx => cases hmoves
      | copy R t idx => cases hmoves
      | _ => rfl
    rw [hout]
    exact hold
  | some m =>
    obtain ⟨R₀, t₀, idx₀⟩ := m
    rw [h.out_self hacc he hnew hready hmoves, Function.update_apply]
    split
    · -- an element of the output belongs to one rank and one place in its rows
      rename_i heq
      simp only [Prod.mk.injEq] at heq
      obtain ⟨hrank, hlaunch, rfl, hidx⟩ := heq
      rw [hrank, hlaunch] at hidx
      have hi := (moves_moved (h.events e' he') hm).2
      rw [hrank, hlaunch] at hi
      obtain ⟨rfl, rfl⟩ := Args.start_inj
        (Grid.lt_of_mem_chunkElems (mem_moved.mp hi).2)
        (Grid.lt_of_mem_chunkElems (mem_moved.mp (moves_moved he hmoves).2).2) hidx
      rw [hlaunch]
    · exact hold

theorem Inv.step (hacc : ∀ c ∈ G.calls, G.Accepts c) {s' : Buffers} {e : Event} (hstep : G.step s e = some s') :
    Inv G init s' := by
  obtain ⟨he, hnew, hprior, hen, rfl⟩ := step_spec hstep
  have hready := h.ready he hprior hen
  refine ⟨?_, ?_, ?_, ?_, ?_, ?_, ?_⟩
  · rw [perform_hist]
    exact .cons h.causal hnew hready
  · rw [perform_hist]
    intro e' he'
    rcases List.mem_cons.mp he' with rfl | he'
    · exact he
    · exact h.events e' he'
  · rw [perform_hist]
    exact h.cnt_step he hnew hready
  · rw [perform_hist]
    exact h.call_step he hnew hready
  · rw [perform_hist]
    exact h.flags_step he hnew hready
  · rw [perform_hist]
    exact h.data_step hready
  · rw [perform_hist]
    exact h.out_step hacc he hnew hready

/-! ## Outputs -/

/-- After its launch an element of the output has been moved by one of the programs. -/
theorem Inv.out_eq {r k R t idx : Nat} (hr : r < G.world) (hR : R < G.world)
    (hdone : ∀ e ∈ G.launch r k, e ∈ s.hist) (ht : t < maxTensors)
    (hidx : idx < (G.argsAt k r).rows R * (G.argsAt k r).width t) :
    s.out (r, k, t, (G.argsAt k r).start R * (G.argsAt k r).width t + idx) = some ((G.argsAt k R).input t idx) := by
  obtain ⟨pid, hpid, hm⟩ := exists_moved G.grid ht hidx
  by_cases hown : R = r
  · subst hown
    refine h.out ⟨R, k, pid, .own t idx⟩ (hdone _ (mem_launch.mpr ⟨rfl, rfl, hpid, ?_⟩)) R t idx rfl
    exact own_mem_kernel.mpr hm
  · refine h.out ⟨r, k, pid, .copy R t idx⟩ (hdone _ (mem_launch.mpr ⟨rfl, rfl, hpid, ?_⟩)) R t idx rfl
    exact copy_mem_kernel.mpr ⟨mem_peers.mpr ⟨hR, hown⟩, hm⟩

theorem Inv.gathered (hacc : ∀ c ∈ G.calls, G.Accepts c) {r k t : Nat} {c : Call} {T : Tensor} (hr : r < G.world)
    (hk : G.calls[k]? = some c) (hdone : ∀ e ∈ G.launch r k, e ∈ s.hist) (hT : (c.tensors r)[t]? = some T) :
    (List.range ((c.sizes.map Int.toNat).sum * (rowBytes T / 4))).map (fun j => s.out (r, k, t, j)) =
      ((List.range G.world).flatMap fun R => (c.tensors R)[t]?.elim [] Tensor.words).map some := by
  have hkl : k < G.calls.length := (List.getElem?_eq_some_iff.mp hk).1
  obtain ⟨c', hc', hcacc, hargs⟩ := exists_call hacc hkl
  obtain rfl : c = c' := Option.some.inj (hk.symm.trans hc')
  obtain ⟨hlen, -, -, hle, -⟩ := canGather_ok (hcacc.canGather r hr)
  have ht : t < maxTensors := lt_of_lt_of_le (List.getElem?_eq_some_iff.mp hT).1 hle
  have hwidth : (G.argsAt k r).width t = rowBytes T / 4 := by
    rw [hargs r]
    exact getD_map _ hT _ _
  have htotal : (c.sizes.map Int.toNat).sum = (G.argsAt k r).start G.world := by
    rw [hargs r]
    unfold Args.start IpcAllGather.launchArgs
    rw [List.take_append_of_le_length (by simp [hlen, comm]), List.take_of_length_le (by simp [hlen, comm])]
  -- every rank has this tensor, with rows of the same width
  have hpart : ∀ R < G.world, (c.tensors R)[t]?.elim [] Tensor.words = (G.argsAt k R).ins.getD t [] ∧
      ((G.argsAt k R).ins.getD t []).length = (G.argsAt k r).rows R * (G.argsAt k r).width t := by
    intro R hR
    have hlenR : (c.tensors R).length = (c.tensors r).length := by
      have := congrArg List.length ((hcacc.layout R hR).trans (hcacc.layout r hr).symm)
      simpa using this
    have htR : t < (c.tensors R).length := by
      rw [hlenR]
      exact (List.getElem?_eq_some_iff.mp hT).1
    obtain ⟨hins, hlenT⟩ := hcacc.tensor hR (List.getElem?_eq_getElem htR)
    have hs := sameLayout hacc hkl hR hr
    rw [← hs.rows R, ← hs.width t, hargs R, hins]
    exact ⟨by rw [List.getElem?_eq_getElem htR]; rfl, hlenT⟩
  rw [htotal, ← hwidth]
  refine @map_range_offset (fun R => (G.argsAt k r).start R * (G.argsAt k r).width t)
    (fun R => (G.argsAt k r).rows R * (G.argsAt k r).width t) ((G.argsAt k r).start_succ t) _ _ ?_ _ _ _ G.world ?_ ?_
  · simp [Args.start]
  · intro R hR idx hidx
    rw [h.out_eq hr hR hdone ht hidx, (hpart R hR).1]
    have hlt : idx < ((G.argsAt k R).ins.getD t []).length := by
      rw [(hpart R hR).2]
      exact hidx
    rw [Args.input, List.getD_eq_getElem?_getD (l := (G.argsAt k R).ins.getD t []), List.getElem?_eq_getElem hlt]
    rfl
  · intro R hR
    rw [(hpart R hR).1]
    exact (hpart R hR).2

/-- No launch waits for ever: some event is enabled as long as one is missing. -/
theorem Inv.progress {e : Event} (he : e ∈ G.events) (hmissing : e ∉ s.hist) : ∃ e s', G.step s e = some s' := by
  obtain ⟨e, he, hnew, hready⟩ := exists_ready stage (fun _ _ => pre_stage) (fun _ _ => pre_mem_events) he hmissing
  refine ⟨e, G.perform s e, if_pos ⟨he, hnew, fun e' he' => hready e' (.inl he'), ?_⟩⟩
  exact h.enabled_of_ready he hready

end

end

end Group

/-- Every finished call has gathered the rows of all ranks; a copy reads the push of its own call, no element is stored
over before its earlier readers have read it, and no call gets stuck. -/
theorem gather_concatenates (G : Group) (hacc : ∀ c ∈ G.calls, G.Accepts c) (init : Nat × Nat → Word)
    (es : List Event) (s : Buffers) (hrun : runFrom G.step { data := init } es = some s) :
    (∀ r < G.world, ∀ k c, G.calls[k]? = some c → (∀ e ∈ G.launch r k, e ∈ s.hist) →
      ∀ t T, (c.tensors r)[t]? = some T →
        (List.range ((c.sizes.map Int.toNat).sum * (rowBytes T / 4))).map (fun j => s.out (r, k, t, j)) =
          ((List.range G.world).flatMap fun R => (c.tensors R)[t]?.elim [] Tensor.words).map some) ∧
    (∀ r k pid R t idx s', G.step s ⟨r, k, pid, .copy R t idx⟩ = some s' →
      (⟨R, k, pid, .push r t idx⟩ : Event) ∈ s.hist ∧
        s.data (r, G.slotElem (G.argsAt k r) (s.call (r, k, pid)) R t idx) = (G.argsAt k R).input t idx) ∧
    (∀ R k pid r t idx s', G.step s ⟨R, k, pid, .push r t idx⟩ = some s' →
      ∀ k' < k, ∀ pid' t' idx', (⟨r, k', pid', .copy R t' idx'⟩ : Event) ∈ G.events →
        G.slotElem (G.argsAt k' r) k' R t' idx' = G.slotElem (G.argsAt k R) (s.call (R, k, pid)) R t idx →
          (⟨r, k', pid', .copy R t' idx'⟩ : Event) ∈ s.hist) ∧
    ∀ e ∈ G.events, e ∉ s.hist → ∃ e s', G.step s e = some s' := by
  have h : G.Inv init s := run_kept (fun s e s' hs hstep => hs.step hacc hstep) (Group.inv_initial init) hrun
  refine ⟨fun r hr k c hk hdone t T hT => h.gathered hacc hr hk hdone hT, ?_, ?_, fun e he hm => h.progress he hm⟩
  · intro r k pid R t idx s' hstep
    obtain ⟨he, hnew, hprior, hen, -⟩ := Group.step_spec hstep
    rw [h.call r pid k (hprior _ (Group.begin_prior nofun)), h.data]
    exact Group.copy_reads hacc h.causal h.events he hnew (h.ready he hprior hen)
  · intro R k pid r t idx s' hstep k' hlt pid' t' idx' he' haddr
    obtain ⟨he, -, hprior, hen, -⟩ := Group.step_spec hstep
    rw [h.call R pid k (hprior _ (Group.begin_prior nofun))] at haddr
    obtain ⟨hR, hk, -, hi⟩ := Group.mem_events.mp he
    obtain ⟨hr', hk', -, hi'⟩ := Group.mem_events.mp he'
    rw [mem_kernel] at hi hi'
    have hne : r ≠ R := (mem_peers.mp hi.1).2
    obtain ⟨hpar, -⟩ := Group.slotElem_inj hR hR (Group.offset_lt hacc hk' hr' hR hi'.2)
      (Group.offset_lt hacc hk hR hR hi.2) haddr
    refine h.causal.mem_of_ready (h.ready he hprior hen) (Group.peer_before he' he hne ?_)
    dsimp only
    omega

def rowWords (r : Nat) (words : List Word) : Tensor where
  device := if r = 0 then "cuda:0" else "cuda:1"
  elementSize := 4
  shape := [words.length]
  words := words

/-- Two ranks gather rows of one word in three calls; the third one reuses the slots of the first. -/
def twoRanks : Group where
  world := 2
  regionElems := 2
  device := fun r => if r = 0 then "cuda:0" else "cuda:1"
  grid := ⟨1, 1, by decide, by decide⟩
  calls := [
    ⟨[1, 1], fun r => [rowWords r (if r = 0 then [5] else [7])]⟩,
    ⟨[2, 0], fun r => [rowWords r (if r = 0 then [8, 9] else [])]⟩,
    ⟨[1, 2], fun r => [rowWords r (if r = 0 then [3] else [4, 6])]⟩]
  two_le_world := by decide
  world_le := by decide
  region_pos := Nat.two_pos

def pushes (r k n : Nat) : List Event :=
  (List.range n).flatMap fun idx => [⟨r, k, 0, .push (1 - r) 0 idx⟩, ⟨r, k, 0, .own 0 idx⟩]

def copies (r k n : Nat) : List Event := (List.range n).map fun idx => ⟨r, k, 0, .copy (1 - r) 0 idx⟩

/-- The second rank ends its launch before the first one has acquired. -/
def callRun (k n m : Nat) : List Event :=
  ⟨0, k, 0, .begin⟩ :: pushes 0 k n ++ ⟨0, k, 0, .release 1⟩ :: ⟨1, k, 0, .begin⟩ :: ⟨1, k, 0, .acquire 0⟩ ::
    pushes 1 k m ++ copies 1 k n ++ [⟨1, k, 0, .release 0⟩]

/-- The first rank is left in its third launch. -/
def twoRanksRun : List Event :=
  callRun 0 1 1 ++ ⟨0, 0, 0, .acquire 1⟩ :: copies 0 0 1 ++ callRun 1 2 0 ++ ⟨0, 1, 0, .acquire 1⟩ :: copies 0 1 0 ++
    callRun 2 1 2

theorem gather_concatenates_twoRanks :
    ∃ s, runFrom twoRanks.step { data := fun _ => 0 } twoRanksRun = some s ∧
      (List.range 2).map (fun j => s.out (0, 0, 0, j)) = [some 5, some 7] ∧
      (List.range 2).map (fun j => s.out (1, 1, 0, j)) = [some 8, some 9] ∧
      (List.range 3).map (fun j => s.out (1, 2, 0, j)) = [some 3, some 4, some 6] ∧
      ∃ e s', twoRanks.step s e = some s' := by
  have hmap : (runFrom twoRanks.step { data := fun _ => 0 } twoRanksRun).map Buffers.hist =
      some twoRanksRun.reverse := by decide +kernel
  obtain ⟨s, hs, hhist⟩ := Option.map_eq_some_iff.mp hmap
  have hacc : ∀ c ∈ twoRanks.calls, twoRanks.Accepts c := by
    intro c hc
    obtain rfl | rfl | rfl : c = _ ∨ c = _ ∨ c = _ := by simpa [twoRanks] using hc
    all_goals
      refine ⟨by decide +kernel, by decide +kernel, fun r _ t ht => ?_⟩
      obtain rfl := List.mem_singleton.mp ht
      simp [Tensor.Packed, rowWords, rowBytes]
  obtain ⟨hgather, -, -, hprogress⟩ := gather_concatenates twoRanks hacc (fun _ => 0) twoRanksRun s hs
  refine ⟨s, hs, hgather 0 (by decide) 0 _ rfl ?_ 0 _ rfl, hgather 1 (by decide) 1 _ rfl ?_ 0 _ rfl,
    hgather 1 (by decide) 2 _ rfl ?_ 0 _ rfl, hprogress ⟨0, 2, 0, .acquire 1⟩ (by decide +kernel) ?_⟩
  all_goals
    rw [hhist]
    decide +kernel

end VllmHcu.Ipc
