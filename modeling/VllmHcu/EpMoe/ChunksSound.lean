import VllmHcu.EpMoe.Chunks
import VllmHcu.Lib.Result
import VllmHcu.Lib.RowMajor

/-!
# When chunked calls keep finished output

The buffers of a call never lie over what a later kernel reads, or over output
rows that are finished. Two things go wrong: the gather stores whole tiles of 32
rows, and a call in chunks drops a scale of one element.
-/

namespace VllmHcu.EpMoe

namespace Span

variable {s t s' t' : Span}

theorem Apart.symm (h : s.Apart t) : t.Apart s := Or.symm h

theorem Apart.mono (h : s.Apart t) (hs : s'.Within s) (ht : t'.Within t) : s'.Apart t' := by
  unfold Apart Within at *
  omega

theorem Within.refl (s : Span) : s.Within s := ⟨Nat.le_refl _, Nat.le_refl _⟩

section
variable {B : Type} {f : Nat → B} {mem : Nat → B}

theorem read_write (s : Span) {i : Nat} (hi : i < s.len) : s.read (s.write f mem) i = f i := by
  unfold read write
  rw [if_pos ⟨Nat.le_add_right .., by omega⟩, Nat.add_sub_cancel_left]

theorem read_apart (h : s.Apart t) {i : Nat} (hi : i < t.len) : t.read (s.write f mem) i = t.read mem i := by
  unfold read write
  unfold Apart at h
  rw [if_neg (by omega)]

end

end Span

open Span

/-- A carved buffer is fresh, or lies in the workspace apart from what it has to avoid. -/
theorem carve_cases (ws : Option Span) (nbytes : Nat) (avoid : Option Span) (fresh : Nat) :
    carve ws nbytes avoid fresh = ⟨fresh, nbytes⟩ ∨
    ∃ w, ws = some w ∧ carve ws nbytes avoid fresh = ⟨w.start, nbytes⟩ ∧ Within ⟨w.start, nbytes⟩ w ∧
      ∀ other, avoid = some other → Apart ⟨w.start, nbytes⟩ other := by
  cases ws with
  | none => exact .inl rfl
  | some w =>
    cases avoid with
    | none =>
      by_cases h : w.len < nbytes
      · exact .inl (by simp [carve, h])
      · exact .inr ⟨w, rfl, by simp [carve, h], ⟨Nat.le_refl _, by simp only; omega⟩, nofun⟩
    | some other =>
      by_cases h : w.len < nbytes ∨ (w.start < other.start + other.len ∧ other.start < w.start + nbytes)
      · exact .inl (by simp [carve, h])
      · refine .inr ⟨w, rfl, by simp [carve, h], ⟨Nat.le_refl _, by simp only; omega⟩, ?_⟩
        intro other' ho
        cases ho
        unfold Apart
        simp only
        omega

theorem carve_len (ws : Option Span) (nbytes : Nat) (avoid : Option Span) (fresh : Nat) :
    (carve ws nbytes avoid fresh).len = nbytes := by
  rcases carve_cases ws nbytes avoid fresh with h | ⟨w, -, h, -⟩ <;> rw [h]

/-- What a kernel stores lies in its buffer, apart from what it reads. -/
def Kernel.Clean (kernel : Kernel) : Prop :=
  ∀ w ∈ kernel.stores, w.Within kernel.buffer ∧ ∀ r ∈ kernel.reads, w.Apart r

namespace ExpertsCall

variable (a : ExpertsCall)

/-- The tokens of the call that starts at token `s`. -/
def tokensAt (s : Nat) : Nat := if a.m ≤ a.chunk then a.m else a.chunkTokens s

/-- The bytes of a buffer in a call on `n` tokens from token `s` on. -/
def bytes (s n : Nat) : Buffer → Nat
  | .gathered => a.rows s n * a.k + 4 * a.rows s n
  | .cache1 => a.rows s n * a.n * a.itemsize
  | .actQ => a.rows s n * (a.n / 2)
  | .cache3 => n * a.topk * a.k * a.itemsize
  | .out => n * a.rowBytes

def freshSpan (s : Nat) (b : Buffer) : Span := ⟨a.fresh s b, a.bytes s (a.tokensAt s) b⟩

/-- The pairs of buffers that one kernel reads and stores. -/
def alive : List (Buffer × Buffer) := [(.gathered, .cache1), (.actQ, .cache1), (.actQ, .cache3), (.cache3, .out)]

/-- How the buffers of the caller lie, and that an allocation lies apart from what is alive. -/
structure Placed : Prop where
  chunk_pos : 0 < a.chunk
  out_len : ∀ o, a.out = some o → o.len = a.m * a.rowBytes
  scale : a.quantised = true → a.a1Numel = some 1 ∨ a.a1Numel = some a.m
  ws2_out : ∀ w o, a.workspace2 = some w → a.out = some o → w.Apart o
  ws2_ws13 : ∀ w v, a.workspace2 = some w → a.workspace13 = some v → w.Apart v
  fresh_out : ∀ s b o, a.out = some o → (a.freshSpan s b).Apart o
  fresh_ws13 : ∀ s b w, a.workspace13 = some w → (a.freshSpan s b).Apart w
  fresh_ws2 : ∀ s b w, a.workspace2 = some w → (a.freshSpan s b).Apart w
  fresh_alive : ∀ s, ∀ p ∈ alive, (a.freshSpan s p.1).Apart (a.freshSpan s p.2)
  fresh_kept : ∀ s s' b, s < s' → (a.freshSpan s' b).Apart (a.freshSpan s .out)

/-- Where the calls start, with the scale each gets. -/
def calls : List (Nat × Option Nat) :=
  if a.m ≤ a.chunk then [(0, a.a1Numel)] else (strided 0 a.m a.chunk).map fun s => (s, a.chunkNumel s)

/-- Whether a call gathers its input into sorted order. -/
def gathers (c : Nat × Option Nat) : Bool :=
  a.presort c.1 (a.tokensAt c.1) && (if a.quantised then c.2 == some (a.tokensAt c.1) else true)

/-- The output rows of the call that starts at `s`, and the output it preserves. -/
def callOut (s : Nat) : Option Span := if a.m ≤ a.chunk then a.out else a.outSlice s

def callPreserve : Option Span := if a.m ≤ a.chunk then none else a.out

def callCarved (c : Nat × Option Nat) : Carved :=
  a.carved c.1 (a.tokensAt c.1) (a.gathers c) (a.callOut c.1) a.callPreserve

/-- No scale of one element meets chunks, and the gathers' tiles of 32 rows fit their buffers. -/
structure TilesFit : Prop where
  scale : a.quantised = true → a.a1Numel = some 1 → a.m ≤ a.chunk
  tiles : ∀ c ∈ a.calls, a.gathers c = true →
    roundUp (a.nvalid c.1 (a.tokensAt c.1)) 32 ≤ a.rows c.1 (a.tokensAt c.1)

variable {a} {c : Nat × Option Nat}

/-! ## The calls -/

theorem epFusedExperts_eq : a.epFusedExperts = a.calls.mapM fun c =>
    a.epFusedExpertsCall c.1 (a.tokensAt c.1) c.2 (a.callOut c.1) a.callPreserve := by
  unfold epFusedExperts calls tokensAt callOut callPreserve
  by_cases h : a.m ≤ a.chunk
  · simp only [h, if_true, List.mapM_cons, List.mapM_nil]
    rfl
  · simp only [h, if_false, List.mapM_map]
    rfl

theorem call_ok (h : a.quantised = true → c.2 ≠ none) :
    a.epFusedExpertsCall c.1 (a.tokensAt c.1) c.2 (a.callOut c.1) a.callPreserve = .ok (a.callCarved c) := by
  obtain ⟨s, numel⟩ := c
  unfold epFusedExpertsCall scaleNumel callCarved gathers
  cases hq : a.quantised with
  | false => simp [bind, Except.bind, pure, Except.pure]
  | true =>
    cases numel with
    | none => exact absurd rfl (h hq)
    | some numel => simp [bind, Except.bind, pure, Except.pure]

theorem call_error (hq : a.quantised = true) (hc : c.2 = none) {r : Carved} :
    a.epFusedExpertsCall c.1 (a.tokensAt c.1) c.2 (a.callOut c.1) a.callPreserve ≠ .ok r := by
  rw [hc]
  simp only [epFusedExpertsCall, scaleNumel, hq, if_true]
  exact nofun

/-- The calls all have a scale unless a scale of one element meets chunks. -/
theorem calls_have_scale (hp : a.Placed) (h : a.quantised = true → a.a1Numel = some 1 → a.m ≤ a.chunk)
    (hq : a.quantised = true) : ∀ c ∈ a.calls, c.2 ≠ none := by
  intro c hc
  unfold calls at hc
  split at hc
  · rw [List.mem_singleton] at hc
    subst hc
    rcases hp.scale hq with h₁ | h₁ <;> simp [h₁]
  · rename_i hm
    obtain ⟨s, -, rfl⟩ := List.mem_map.mp hc
    have hne : a.a1Numel ≠ some 1 := fun h₁ => hm (h hq h₁)
    have h₁ := (hp.scale hq).resolve_left hne
    have hm1 : a.m ≠ 1 := by
      intro he
      rw [he] at h₁
      exact hne h₁
    simp [chunkNumel, h₁, hm1]

theorem epFusedExperts_ok (hp : a.Placed) (h : a.quantised = true → a.a1Numel = some 1 → a.m ≤ a.chunk) :
    a.epFusedExperts = .ok (a.calls.map a.callCarved) := by
  rw [epFusedExperts_eq]
  exact mapM_returns fun c hc => call_ok fun hq => calls_have_scale hp h hq c hc

theorem calls_start (hp : a.Placed) (hc : c ∈ a.calls) : c.1 + a.tokensAt c.1 ≤ a.m := by
  unfold calls at hc
  unfold tokensAt chunkTokens
  split at hc
  · rename_i hm
    rw [List.mem_singleton] at hc
    rw [hc, if_pos hm]
    exact (Nat.zero_add _).le
  · rename_i hm
    obtain ⟨s, hs, rfl⟩ := List.mem_map.mp hc
    obtain ⟨i, -, hlt⟩ := (mem_strided hp.chunk_pos).mp hs
    simp only [hm, if_false]
    omega

/-- Every token is in a call. -/
theorem exists_call (hp : a.Placed) {token : Nat} (ht : token < a.m) :
    ∃ c ∈ a.calls, c.1 ≤ token ∧ token < c.1 + a.tokensAt c.1 := by
  unfold calls tokensAt chunkTokens
  by_cases hm : a.m ≤ a.chunk
  · simp only [hm, if_true]
    exact ⟨_, List.mem_singleton_self _, Nat.zero_le _, by omega⟩
  · simp only [hm, if_false]
    have hdm := Nat.div_add_mod' token a.chunk
    have hlt := Nat.mod_lt token hp.chunk_pos
    refine ⟨_, List.mem_map.mpr ⟨token / a.chunk * a.chunk, ?_, rfl⟩, ?_, ?_⟩
    · exact (mem_strided hp.chunk_pos).mpr ⟨token / a.chunk, by omega, by omega⟩
    · simp only
      omega
    · simp only
      omega

/-- A later call starts past the tokens of an earlier one, and there is one only in chunks. -/
theorem calls_pairwise (hp : a.Placed) : a.calls.Pairwise fun c c' => ¬ a.m ≤ a.chunk ∧ c.1 < c'.1 ∧ c.1 + a.tokensAt c.1 ≤ c'.1 := by
  unfold calls
  split
  · exact List.pairwise_singleton ..
  · rename_i hm
    unfold strided
    rw [List.pairwise_map, List.pairwise_map]
    refine List.pairwise_lt_range.imp ?_
    intro i j hij
    have hmul := Nat.mul_le_mul_right a.chunk (Nat.succ_le_of_lt hij)
    rw [Nat.succ_mul] at hmul
    have := hp.chunk_pos
    simp only [tokensAt, chunkTokens, hm, if_false, not_false_eq_true, true_and]
    omega

/-! ## Where the buffers lie -/

/-- Allocated, or in the workspace. -/
def Lies (a : ExpertsCall) (ws : Option Span) (s : Nat) (b : Buffer) (x : Span) : Prop :=
  x = a.freshSpan s b ∨ ∃ w, ws = some w ∧ x.Within w

theorem carve_lies (ws avoid : Option Span) (s : Nat) (b : Buffer) :
    a.Lies ws s b (carve ws (a.bytes s (a.tokensAt s) b) avoid (a.fresh s b)) := by
  rcases carve_cases ws (a.bytes s (a.tokensAt s) b) avoid (a.fresh s b) with h | ⟨w, hw, h, hin, -⟩
  · exact .inl h
  · rw [h]
    exact .inr ⟨w, hw, hin⟩

/-- A buffer of the second workspace and one of the first that are alive together. -/
theorem Lies.apart (hp : a.Placed) {s : Nat} {b b' : Buffer} {x y : Span} (hx : a.Lies a.workspace2 s b x)
    (hy : a.Lies a.workspace13 s b' y) (hb : (b, b') ∈ alive) : x.Apart y := by
  rcases hx with rfl | ⟨w, hw, hx⟩
  · rcases hy with rfl | ⟨v, hv, hy⟩
    · exact hp.fresh_alive s _ hb
    · exact (hp.fresh_ws13 s b v hv).mono (.refl _) hy
  · rcases hy with rfl | ⟨v, hv, hy⟩
    · exact (hp.fresh_ws2 s b' w hw).symm.mono hx (.refl _)
    · exact (hp.ws2_ws13 w v hw hv).mono hx hy

theorem gathered_lies {g : Span} (hg : (a.callCarved c).gathered = some g) : a.Lies a.workspace2 c.1 .gathered g := by
  simp only [callCarved, carved, Option.ite_none_right_eq_some, Option.some.injEq] at hg
  rw [← hg.2]
  exact carve_lies ..

theorem cache1_lies : a.Lies a.workspace13 c.1 .cache1 (a.callCarved c).cache1 := carve_lies ..

theorem actQ_lies : a.Lies a.workspace2 c.1 .actQ (a.callCarved c).actQ := carve_lies a.workspace2 none c.1 .actQ

theorem cache3_lies : a.Lies a.workspace13 c.1 .cache3 (a.callCarved c).cache3 :=
  carve_lies a.workspace13 (some (a.callPreserve.getD (a.callCarved c).out)) c.1 .cache3

theorem out_none (ho : a.out = none) : (a.callCarved c).out = a.freshSpan c.1 .out := by
  have hout : a.callOut c.1 = none := by simp [callOut, outSlice, ho]
  simp only [callCarved, carved, hout]
  rfl

theorem out_slice (hm : ¬ a.m ≤ a.chunk) {o : Span} (ho : a.out = some o) :
    (a.callCarved c).out = ⟨o.start + c.1 * a.rowBytes, a.tokensAt c.1 * a.rowBytes⟩ := by
  simp [callCarved, carved, callOut, outSlice, tokensAt, ho, hm]

theorem out_whole (hm : a.m ≤ a.chunk) {o : Span} (ho : a.out = some o) : (a.callCarved c).out = o := by
  simp [callCarved, carved, callOut, ho, hm]

theorem out_len (hp : a.Placed) : (a.callCarved c).out.len = a.bytes c.1 (a.tokensAt c.1) .out := by
  cases ho : a.out with
  | none => rw [out_none ho]; rfl
  | some o =>
    by_cases hm : a.m ≤ a.chunk
    · rw [out_whole hm ho, hp.out_len o ho]
      simp [bytes, tokensAt, hm]
    · rw [out_slice hm ho]
      rfl

theorem out_within (hp : a.Placed) (hc : c ∈ a.calls) {o : Span} (ho : a.out = some o) : (a.callCarved c).out.Within o := by
  by_cases hm : a.m ≤ a.chunk
  · rw [out_whole hm ho]
    exact .refl o
  · have hle := Nat.mul_le_mul_right a.rowBytes (calls_start hp hc)
    rw [Nat.add_mul] at hle
    rw [out_slice hm ho]
    refine ⟨Nat.le_add_right .., ?_⟩
    simp only [hp.out_len o ho]
    omega

/-- The last temporary lies apart from the output rows. -/
theorem cache3_out (hp : a.Placed) (hc : c ∈ a.calls) : (a.callCarved c).cache3.Apart (a.callCarved c).out := by
  have hcases := carve_cases a.workspace13 (a.bytes c.1 (a.tokensAt c.1) .cache3)
    (some (a.callPreserve.getD (a.callCarved c).out)) (a.fresh c.1 .cache3)
  change (a.callCarved c).cache3 = _ ∨ _ at hcases
  rcases hcases with h | ⟨w, hw, h, hin, havoid⟩
  · rw [h]
    cases ho : a.out with
    | none =>
      rw [out_none ho]
      exact hp.fresh_alive c.1 (.cache3, .out) (by simp [alive])
    | some o => exact (hp.fresh_out c.1 .cache3 o ho).mono (.refl _) (out_within hp hc ho)
  · refine Apart.mono (havoid _ rfl) (by rw [← h]; exact .refl _) ?_
    unfold callPreserve
    split
    · exact .refl _
    · cases ho : a.out with
      | none => exact .refl _
      | some o => exact out_within hp hc ho

/-! ## Output that is finished -/

section
variable {c' : Nat × Option Nat} (hp : a.Placed) (hc : c ∈ a.calls) (hlt : c.1 < c'.1)
include hp hc hlt

theorem ws2_kept {b : Buffer} {x : Span} (hx : a.Lies a.workspace2 c'.1 b x) : x.Apart (a.callCarved c).out := by
  cases ho : a.out with
  | none =>
    rw [out_none ho]
    rcases hx with rfl | ⟨w, hw, hx⟩
    · exact hp.fresh_kept c.1 c'.1 b hlt
    · exact (hp.fresh_ws2 c.1 .out w hw).symm.mono hx (.refl _)
  | some o =>
    refine Apart.mono ?_ (.refl _) (out_within hp hc ho)
    rcases hx with rfl | ⟨w, hw, hx⟩
    · exact hp.fresh_out c'.1 b o ho
    · exact (hp.ws2_out w o hw ho).mono hx (.refl _)

/-- A buffer in the first workspace has to avoid the whole output. -/
theorem ws13_kept (b : Buffer) {avoid : Option Span} (havoid : ∀ o, a.out = some o → avoid = some o) :
    (carve a.workspace13 (a.bytes c'.1 (a.tokensAt c'.1) b) avoid (a.fresh c'.1 b)).Apart (a.callCarved c).out := by
  rcases carve_cases a.workspace13 (a.bytes c'.1 (a.tokensAt c'.1) b) avoid (a.fresh c'.1 b) with h | ⟨w, hw, h, hin, hother⟩
  · rw [h]
    cases ho : a.out with
    | none =>
      rw [out_none ho]
      exact hp.fresh_kept c.1 c'.1 b hlt
    | some o => exact (hp.fresh_out c'.1 b o ho).mono (.refl _) (out_within hp hc ho)
  · rw [h]
    cases ho : a.out with
    | none =>
      rw [out_none ho]
      exact (hp.fresh_ws13 c.1 .out w hw).symm.mono hin (.refl _)
    | some o => exact (hother o (havoid o ho)).mono (.refl _) (out_within hp hc ho)

omit hc in
theorem out_kept (hm : ¬ a.m ≤ a.chunk) (hle : c.1 + a.tokensAt c.1 ≤ c'.1) : (a.callCarved c').out.Apart (a.callCarved c).out := by
  cases ho : a.out with
  | none =>
    rw [out_none ho, out_none ho]
    exact hp.fresh_kept c.1 c'.1 .out hlt
  | some o =>
    have hmul := Nat.mul_le_mul_right a.rowBytes hle
    rw [Nat.add_mul] at hmul
    rw [out_slice hm ho, out_slice hm ho]
    refine .inr ?_
    simp only
    omega

end

/-! ## What the kernels store -/

/-- The tiles of a gather lie in its buffer exactly when there is a row for each. -/
theorem gatherStores_within {g : Span} {rows stored : Nat} (hg : g.len = rows * a.k + 4 * rows) :
    (∀ w ∈ a.gatherStores g rows stored, w.Within g) ↔ stored ≤ rows := by
  simp only [gatherStores, List.forall_mem_cons, List.not_mem_nil, Within, hg]
  constructor
  · intro h
    have := h.1.2
    omega
  · intro h
    have := Nat.mul_le_mul_right a.k h
    exact ⟨⟨by omega, by omega⟩, ⟨Nat.le_refl _, by omega⟩, nofun⟩

theorem gathered_len {g : Span} (hg : (a.callCarved c).gathered = some g) :
    g.len = (a.callCarved c).rows * a.k + 4 * (a.callCarved c).rows := by
  simp only [callCarved, carved, Option.ite_none_right_eq_some, Option.some.injEq] at hg
  rw [← hg.2, carve_len]
  rfl

theorem gathers_of_gathered {g : Span} (hg : (a.callCarved c).gathered = some g) : a.gathers c = true := by
  simp only [callCarved, carved, Option.ite_none_right_eq_some] at hg
  exact hg.1

theorem forall_kernels {P : Kernel → Prop} {x : Carved} : (∀ kernel ∈ a.kernels x, P kernel) ↔
    (∀ g, x.gathered = some g → P ⟨[], g, a.gatherStores g x.rows x.gatheredRows⟩) ∧
    P ⟨x.gathered.toList, x.cache1, [x.cache1]⟩ ∧ P ⟨[x.cache1], x.actQ, [x.actQ]⟩ ∧ P ⟨[x.actQ], x.cache3, [x.cache3]⟩ ∧
    P ⟨[x.cache3], x.out, [x.out]⟩ := by
  unfold kernels
  cases x.gathered with
  | none => simp
  | some g => simp

theorem kernels_clean (hp : a.Placed) (hc : c ∈ a.calls) (hfit : a.TilesFit) :
    ∀ kernel ∈ a.kernels (a.callCarved c), kernel.Clean := by
  have hlater := (actQ_lies (a := a) (c := c)).apart hp cache3_lies (by simp [alive])
  have hact := (actQ_lies (a := a) (c := c)).apart hp cache1_lies (by simp [alive])
  rw [forall_kernels]
  refine ⟨?_, ?_, ?_, ?_, ?_⟩
  · intro g hg w hw
    refine ⟨(gatherStores_within (gathered_len hg)).mpr (hfit.tiles c hc (gathers_of_gathered hg)) w hw, nofun⟩
  · intro w hw
    rw [List.mem_singleton] at hw
    rw [hw]
    refine ⟨.refl _, ?_⟩
    intro g hg
    rw [Option.mem_toList] at hg
    exact ((gathered_lies hg).apart hp cache1_lies (by simp [alive])).symm
  · simpa [Kernel.Clean] using ⟨.refl _, hact⟩
  · simpa [Kernel.Clean] using ⟨.refl _, hlater.symm⟩
  · simpa [Kernel.Clean] using ⟨.refl _, (cache3_out hp hc).symm⟩

/-- A later call stores nothing over the output of an earlier one. -/
theorem kernels_kept (hp : a.Placed) (hfit : a.TilesFit) {c' : Nat × Option Nat} (hc : c ∈ a.calls) (hc' : c' ∈ a.calls)
    (hm : ¬ a.m ≤ a.chunk) (hlt : c.1 < c'.1) (hle : c.1 + a.tokensAt c.1 ≤ c'.1) :
    ∀ kernel ∈ a.kernels (a.callCarved c'), ∀ w ∈ kernel.stores, w.Apart (a.callCarved c).out := by
  have havoid : ∀ o, a.out = some o → a.callPreserve = some o := by
    intro o ho
    rw [callPreserve, if_neg hm, ho]
  have h₁ : (a.callCarved c').cache1.Apart (a.callCarved c).out := ws13_kept hp hc hlt .cache1 havoid
  have h₃ : (a.callCarved c').cache3.Apart (a.callCarved c).out := by
    refine ws13_kept hp hc hlt .cache3 ?_
    intro o ho
    rw [havoid o ho]
    rfl
  rw [forall_kernels]
  refine ⟨?_, ?_, ?_, ?_, ?_⟩
  · intro g hg w hw
    have hin := (gatherStores_within (gathered_len hg)).mpr (hfit.tiles c' hc' (gathers_of_gathered hg)) w hw
    exact (ws2_kept hp hc hlt (gathered_lies hg)).mono hin (.refl _)
  · simpa using h₁
  · simpa using ws2_kept hp hc hlt actQ_lies
  · simpa using h₃
  · simpa using out_kept hp hlt hm hle

end ExpertsCall

/-! ## What the calls return -/

section
variable {B : Type} (f : Stages B) (a : ExpertsCall)

/-- The output of a call on `n` tokens from token `s` on, each buffer by itself. -/
def Stages.call (s n : Nat) : Nat → B := f.sum s n (f.gemm2 s n (f.act s n (f.gemm1 s n)))

/-- A byte of the gathered input that belongs to a row below `nvalid`. -/
def Gathers (s n i : Nat) : Prop :=
  i < a.nvalid s n * a.k ∨ a.rows s n * a.k ≤ i ∧ i < a.rows s n * a.k + 4 * a.nvalid s n

/-- The kernels read their buffers only, the sorted product equals the unsorted one, and the experts work row by row. -/
structure RowWise : Prop where
  act : ∀ s n p q, (∀ i < a.bytes s n .cache1, p i = q i) → ∀ i < a.bytes s n .actQ, f.act s n p i = f.act s n q i
  gemm2 : ∀ s n p q, (∀ i < a.bytes s n .actQ, p i = q i) → ∀ i < a.bytes s n .cache3, f.gemm2 s n p i = f.gemm2 s n q i
  sum : ∀ s n p q, (∀ i < a.bytes s n .cache3, p i = q i) → ∀ i < a.bytes s n .out, f.sum s n p i = f.sum s n q i
  sorted : ∀ s n g, (∀ i, Gathers a s n i → g i = f.gathered s n i) → ∀ i < a.bytes s n .out,
    f.sum s n (f.gemm2 s n (f.act s n (f.gemm1Sorted s n g))) i = f.call s n i
  rows : ∀ s n t j, s + n ≤ a.m → t < n → j < a.rowBytes →
    f.call s n (t * a.rowBytes + j) = f.call 0 a.m ((s + t) * a.rowBytes + j)

/-- The calls succeed, return the rows of one call, and keep to their buffers and off finished output. -/
def ChunksAgree : Prop :=
  ∃ cs, a.epFusedExperts = .ok cs ∧
    (∀ mem token byte, token < a.m → byte < a.rowBytes →
      returned f a cs mem token byte = some (f.call 0 a.m (token * a.rowBytes + byte))) ∧
    (∀ c ∈ cs, ∀ kernel ∈ a.kernels c, kernel.Clean) ∧
    cs.Pairwise fun c c' => ∀ kernel ∈ a.kernels c', ∀ w ∈ kernel.stores, w.Apart c.out

variable {f a} {c : Nat × Option Nat}

theorem runCall_frame {x : Carved} {t : Span} (h : ∀ kernel ∈ a.kernels x, ∀ w ∈ kernel.stores, w.Apart t) (mem : Nat → B)
    {i : Nat} (hi : i < t.len) : t.read (runCall f a mem x) i = t.read mem i := by
  obtain ⟨hgather, h₁, h₂, h₃, h₄⟩ := ExpertsCall.forall_kernels.mp h
  simp only [List.forall_mem_singleton] at h₁ h₂ h₃ h₄
  unfold runCall
  simp only
  rw [read_apart h₄ hi, read_apart h₃ hi, read_apart h₂ hi]
  cases hg : x.gathered with
  | none => exact read_apart h₁ hi
  | some g =>
    have hg := hgather g hg
    simp only [ExpertsCall.gatherStores, List.forall_mem_cons] at hg
    simp only [ExpertsCall.gatherStores, List.foldl_cons, List.foldl_nil]
    rw [read_apart h₁ hi, read_apart hg.2.1 hi, read_apart hg.1 hi]

theorem foldl_frame {t : Span} {i : Nat} (hi : i < t.len) : ∀ {cs : List Carved} (mem : Nat → B),
    (∀ x ∈ cs, ∀ kernel ∈ a.kernels x, ∀ w ∈ kernel.stores, w.Apart t) → t.read (cs.foldl (runCall f a) mem) i = t.read mem i
  | [], _, _ => rfl
  | x :: cs, mem, h => by
    rw [List.foldl_cons, foldl_frame hi _ fun y hy => h y (List.mem_cons_of_mem x hy)]
    exact runCall_frame (h x List.mem_cons_self) mem hi

/-- The kernels after the first product, from what it left in its buffer. -/
theorem stages_read (hp : a.Placed) (hf : RowWise f a) {mem : Nat → B} {p : Nat → B} {x : Carved} (hx : x = a.callCarved c)
    (h : ∀ i < x.cache1.len, x.cache1.read mem i = p i) {i : Nat} (hi : i < x.out.len) :
    let m₂ := x.actQ.write (f.act x.s x.tokens (x.cache1.read mem)) mem
    let m₃ := x.cache3.write (f.gemm2 x.s x.tokens (x.actQ.read m₂)) m₂
    x.out.read (x.out.write (f.sum x.s x.tokens (x.cache3.read m₃)) m₃) i =
      f.sum x.s x.tokens (f.gemm2 x.s x.tokens (f.act x.s x.tokens p)) i := by
  intro m₂ m₃
  have hlen₁ : x.cache1.len = a.bytes x.s x.tokens .cache1 := by
    rw [hx]
    exact carve_len ..
  have hlen₂ : x.actQ.len = a.bytes x.s x.tokens .actQ := by
    rw [hx]
    exact carve_len ..
  have hlen₃ : x.cache3.len = a.bytes x.s x.tokens .cache3 := by
    rw [hx]
    exact carve_len ..
  have hlen₄ : x.out.len = a.bytes x.s x.tokens .out := by
    rw [hx]
    exact ExpertsCall.out_len hp
  have hact : ∀ i < a.bytes x.s x.tokens .actQ, x.actQ.read m₂ i = f.act x.s x.tokens p i := by
    intro j hj
    rw [read_write _ (by rwa [hlen₂])]
    exact hf.act _ _ _ _ (fun k hk => h k (by rwa [hlen₁])) j hj
  have hgemm : ∀ i < a.bytes x.s x.tokens .cache3, x.cache3.read m₃ i = f.gemm2 x.s x.tokens (f.act x.s x.tokens p) i := by
    intro j hj
    rw [read_write _ (by rwa [hlen₃])]
    exact hf.gemm2 _ _ _ _ hact j hj
  rw [read_write _ hi]
  exact hf.sum _ _ _ _ hgemm i (by rwa [← hlen₄])

/-- The gathered rows read back, when the tiles fit. -/
theorem gather_read {x : Carved} {g : Span} (hstored : x.gatheredRows = roundUp (a.nvalid x.s x.tokens) 32)
    (hrows : x.rows = a.rows x.s x.tokens) (hfit : x.gatheredRows ≤ x.rows) (mem : Nat → B) {i : Nat}
    (hi : Gathers a x.s x.tokens i) :
    g.read ((a.gatherStores g x.rows x.gatheredRows).foldl
      (fun mem w => w.write (fun i => f.gathered x.s x.tokens (w.start - g.start + i)) mem) mem) i =
      f.gathered x.s x.tokens i := by
  have hle := le_roundUp (a.nvalid x.s x.tokens) (show 0 < 32 by decide)
  rw [← hstored] at hle
  have hmul := Nat.mul_le_mul_right a.k hle
  have hmul' := Nat.mul_le_mul_right a.k hfit
  unfold Gathers at hi
  rw [← hrows] at hi
  simp only [ExpertsCall.gatherStores, List.foldl_cons, List.foldl_nil, Span.read, Span.write]
  rcases hi with hi | hi
  · rw [if_pos (by omega)]
    congr 1
    omega
  · rw [if_neg (by omega), if_pos (by omega)]
    congr 1
    omega

theorem runCall_out (hp : a.Placed) (hf : RowWise f a) (hc : c ∈ a.calls) (hfit : a.TilesFit) (mem : Nat → B) {i : Nat}
    (hi : i < (a.callCarved c).out.len) :
    (a.callCarved c).out.read (runCall f a mem (a.callCarved c)) i = f.call c.1 (a.tokensAt c.1) i := by
  unfold runCall
  cases hg : (a.callCarved c).gathered with
  | none => exact stages_read hp hf rfl (fun j hj => read_write _ hj) hi
  | some g =>
    refine (stages_read hp hf rfl (fun j hj => read_write _ hj) hi).trans ?_
    rw [ExpertsCall.out_len hp] at hi
    refine hf.sorted _ _ _ ?_ i hi
    intro j hj
    exact gather_read (x := a.callCarved c) rfl rfl (hfit.tiles c hc (ExpertsCall.gathers_of_gathered hg)) mem hj

theorem returned_rows (hp : a.Placed) (hf : RowWise f a) (hfit : a.TilesFit) (mem : Nat → B) {token byte : Nat}
    (ht : token < a.m) (hb : byte < a.rowBytes)
    (hkept : (a.calls.map a.callCarved).Pairwise fun c c' => ∀ kernel ∈ a.kernels c', ∀ w ∈ kernel.stores, w.Apart c.out) :
    returned f a (a.calls.map a.callCarved) mem token byte = some (f.call 0 a.m (token * a.rowBytes + byte)) := by
  obtain ⟨c₀, hc₀, hlo₀, hhi₀⟩ := ExpertsCall.exists_call hp ht
  cases hfind : (a.calls.map a.callCarved).find? fun c => c.s ≤ token && token < c.s + c.tokens with
  | none =>
    refine absurd (List.find?_eq_none.mp hfind _ (List.mem_map_of_mem hc₀)) ?_
    simp [ExpertsCall.callCarved, ExpertsCall.carved, hlo₀, hhi₀]
  | some x =>
    have hin := List.find?_some hfind
    simp only [Bool.and_eq_true, decide_eq_true_eq] at hin
    obtain ⟨hlo, hhi⟩ := hin
    obtain ⟨before, after, hsplit⟩ := List.append_of_mem (List.mem_of_find?_eq_some hfind)
    obtain ⟨c, hc, rfl⟩ := List.mem_map.mp (List.mem_of_find?_eq_some hfind)
    change c.1 ≤ token at hlo
    change token < c.1 + a.tokensAt c.1 at hhi
    have hi : (token - c.1) * a.rowBytes + byte < (a.callCarved c).out.len := by
      rw [ExpertsCall.out_len hp]
      exact block_lt (by omega) hb
    have hafter : ∀ x ∈ after, ∀ kernel ∈ a.kernels x, ∀ w ∈ kernel.stores, w.Apart (a.callCarved c).out := by
      rw [hsplit, List.pairwise_append, List.pairwise_cons] at hkept
      exact hkept.2.1.1
    have hrow := hf.rows c.1 (a.tokensAt c.1) (token - c.1) byte (ExpertsCall.calls_start hp hc) (by omega) hb
    rw [Nat.add_sub_cancel' hlo] at hrow
    simp only [returned, hfind, Option.map_some, Option.some.injEq]
    change (a.callCarved c).out.read _ ((token - c.1) * a.rowBytes + byte) = _
    rw [hsplit, List.foldl_append, List.foldl_cons, foldl_frame hi _ hafter]
    exact (runCall_out hp hf hc hfit _ hi).trans hrow

theorem ExpertsCall.TilesFit.agree (hp : a.Placed) (hf : RowWise f a) (hfit : a.TilesFit) : ChunksAgree f a := by
  have hkept : (a.calls.map a.callCarved).Pairwise fun c c' =>
      ∀ kernel ∈ a.kernels c', ∀ w ∈ kernel.stores, w.Apart c.out := by
    rw [List.pairwise_map]
    refine (ExpertsCall.calls_pairwise hp).imp_of_mem ?_
    intro c c' hc hc' ⟨hm, hlt, hle⟩
    exact ExpertsCall.kernels_kept hp hfit hc hc' hm hlt hle
  refine ⟨_, ExpertsCall.epFusedExperts_ok hp hfit.scale, ?_, ?_, hkept⟩
  · intro mem token byte ht hb
    exact returned_rows hp hf hfit mem ht hb hkept
  · intro x hx
    obtain ⟨c, hc, rfl⟩ := List.mem_map.mp hx
    exact ExpertsCall.kernels_clean hp hc hfit

/-- A scale of one element does not survive the chunks. -/
theorem ChunksAgree.scale (hp : a.Placed) (h : ChunksAgree f a) (hq : a.quantised = true) (h₁ : a.a1Numel = some 1) :
    a.m ≤ a.chunk := by
  obtain ⟨cs, hcs, -⟩ := h
  by_contra hm
  rw [ExpertsCall.epFusedExperts_eq] at hcs
  have hmem : (0, a.chunkNumel 0) ∈ a.calls := by
    rw [ExpertsCall.calls, if_neg hm]
    exact List.mem_map.mpr ⟨0, (mem_strided hp.chunk_pos).mpr ⟨0, by omega, by omega⟩, rfl⟩
  obtain ⟨x, -, hx⟩ := forall₂_mem_left ((mapM_eq_ok _).mp hcs) hmem
  exact ExpertsCall.call_error hq (by simp [ExpertsCall.chunkNumel, h₁]) hx

theorem ChunksAgree.tilesFit (hp : a.Placed) (h : ChunksAgree f a) : a.TilesFit := by
  have hscale := h.scale hp
  refine ⟨hscale, ?_⟩
  intro c hc hg
  obtain ⟨cs, hcs, -, hclean, -⟩ := h
  rw [ExpertsCall.epFusedExperts_ok hp hscale] at hcs
  have hmem : a.callCarved c ∈ cs := by
    rw [← Except.ok.inj hcs]
    exact List.mem_map_of_mem hc
  obtain ⟨hgather, -⟩ := ExpertsCall.forall_kernels.mp (hclean _ hmem)
  have hsome : (a.callCarved c).gathered = some (carve a.workspace2
      (a.rows c.1 (a.tokensAt c.1) * a.k + 4 * a.rows c.1 (a.tokensAt c.1)) none (a.fresh c.1 .gathered)) := by
    simp only [ExpertsCall.callCarved, ExpertsCall.carved, hg, if_true]
  exact (ExpertsCall.gatherStores_within (ExpertsCall.gathered_len hsome)).mp fun w hw => (hgather _ hsome w hw).1

end

/-- Tokens of two bytes, the output at the start of memory, under a workspace for the larger temporaries. -/
def smallCall (m chunk tile : Nat) (quantised : Bool) : ExpertsCall where
  m := m
  chunk := chunk
  quantised := quantised
  a1Numel := some 1
  presort _ _ := true
  n := 2
  k := 2
  topk := 1
  itemsize := 1
  rows _ n := roundUp n tile
  nvalid _ n := roundUp n tile
  out := some ⟨0, m * 2⟩
  workspace13 := some ⟨2, 400⟩
  workspace2 := some ⟨1000, 400⟩
  fresh s
    | .gathered => 10000 * (s + 1)
    | .cache1 => 10000 * (s + 1) + 1000
    | .actQ => 10000 * (s + 1) + 2000
    | .cache3 => 10000 * (s + 1) + 3000
    | .out => 10000 * (s + 1) + 4000

/-- The activation keeps one byte of two, and the second product repeats it. -/
def smallStages : Stages Nat where
  gathered s _ i := s * 2 + i
  gemm1 s _ i := s * 2 + i
  gemm1Sorted _ _ g i := g i
  act _ _ p i := p (i * 2)
  gemm2 _ _ p i := p (i / 2)
  sum _ _ p i := p i

section
variable {m chunk tile : Nat} {quantised : Bool}

variable (chunk quantised) in
theorem small_bytes (hm : m ≤ 3) (ht : 0 < tile ∧ tile ≤ 32) (s : Nat) (b : Buffer) :
    (smallCall m chunk tile quantised).bytes s ((smallCall m chunk tile quantised).tokensAt s) b ≤ 400 := by
  have htok : (smallCall m chunk tile quantised).tokensAt s ≤ 3 := by
    unfold ExpertsCall.tokensAt ExpertsCall.chunkTokens smallCall
    simp only
    split <;> omega
  have hround := roundUp_le ((smallCall m chunk tile quantised).tokensAt s) ht.1
  cases b <;> simp only [ExpertsCall.bytes, ExpertsCall.rowBytes, smallCall] at htok hround ⊢ <;> omega

theorem small_placed (hm : m ≤ 3) (hc : 0 < chunk) (ht : 0 < tile ∧ tile ≤ 32) : (smallCall m chunk tile quantised).Placed where
  chunk_pos := hc
  out_len := by simp [smallCall, ExpertsCall.rowBytes]
  scale _ := .inl rfl
  ws2_out := by
    simp [smallCall, Apart]
    omega
  ws2_ws13 := by simp [smallCall, Apart]
  fresh_out s b o ho := by
    cases ho
    cases b <;> simp [ExpertsCall.freshSpan, smallCall, Apart] <;> omega
  fresh_ws13 s b w hw := by
    cases hw
    cases b <;> simp [ExpertsCall.freshSpan, smallCall, Apart]
    omega
  fresh_ws2 s b w hw := by
    cases hw
    cases b <;> simp [ExpertsCall.freshSpan, smallCall, Apart] <;> omega
  fresh_alive s p hp := by
    have h₁ := small_bytes chunk quantised hm ht s p.1
    have h₂ := small_bytes chunk quantised hm ht s p.2
    simp only [ExpertsCall.alive, List.mem_cons, List.not_mem_nil, or_false] at hp
    rcases hp with rfl | rfl | rfl | rfl <;> simp only [ExpertsCall.freshSpan, Apart] at h₁ h₂ ⊢ <;>
      simp only [smallCall] at h₁ h₂ ⊢ <;> omega
  fresh_kept s s' b hlt := by
    have h := small_bytes chunk quantised hm ht s .out
    cases b <;> simp only [ExpertsCall.freshSpan, Apart] at h ⊢ <;> simp only [smallCall] at h ⊢ <;> omega

theorem small_rowWise (ht : 0 < tile) : RowWise smallStages (smallCall m chunk tile quantised) where
  act s n p q h i hi := by
    simp only [ExpertsCall.bytes, smallCall] at hi h
    exact h _ (by omega)
  gemm2 s n p q h i hi := by
    have := le_roundUp n ht
    simp only [ExpertsCall.bytes, smallCall] at hi h
    exact h _ (by omega)
  sum s n p q h i hi := by
    simp only [ExpertsCall.bytes, ExpertsCall.rowBytes, smallCall] at hi h
    exact h _ (by omega)
  sorted s n g h i hi := by
    have := le_roundUp n ht
    simp only [Gathers, ExpertsCall.bytes, ExpertsCall.rowBytes, smallCall] at hi h
    exact h _ (.inl (by omega))
  rows s n t j hs ht hj := by
    simp only [Stages.call, smallStages, ExpertsCall.rowBytes, smallCall] at hj ⊢
    omega

end

end VllmHcu.EpMoe
