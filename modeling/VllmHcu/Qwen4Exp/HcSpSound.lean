import VllmHcu.Qwen4Exp.HcSp

/-!
# The sharded model is the replicated model

Beside the run with the flag stands the run without it, in which every rank holds
the same rows. Between any two layers the shards of the first hold the rows of the
second, the pending combine included; nothing is said about padding rows.
-/

namespace VllmHcu.Qwen4Exp

/-! ## Rows of a rank -/

/-- The rows of a shard of `n` rows. -/
def shardSize (tpSize n : Nat) : Nat := (n + (-(n : Int) % (tpSize : Int)).toNat) / tpSize

theorem mul_shardSize {tp : Nat} (htp : 0 < tp) (n : Nat) :
    n + (-(n : Int) % (tp : Int)).toNat = tp * shardSize tp n := by
  have hpos : (tp : Int) ≠ 0 := by omega
  have hdvd : (tp : Int) ∣ (n : Int) + -(n : Int) % (tp : Int) := by
    refine ⟨-(-(n : Int) / tp), ?_⟩
    have := Int.mul_ediv_add_emod (-(n : Int)) tp
    rw [Int.mul_neg]
    omega
  have hnonneg := Int.emod_nonneg (-(n : Int)) hpos
  have hcast : ((n + (-(n : Int) % (tp : Int)).toNat : Nat) : Int) = (n : Int) + -(n : Int) % (tp : Int) := by
    rw [Int.natCast_add, Int.toNat_of_nonneg hnonneg]
  exact (Nat.mul_div_cancel' (Int.natCast_dvd_natCast.mp (by rwa [hcast]))).symm

section
variable {α β : Type} {tp n : Nat}

theorem padToGroup_length (htp : 0 < tp) (x : List α) (value : α) :
    (padToGroup tp x value).length = tp * shardSize tp x.length := by
  rw [padToGroup, padRows, List.length_append, List.length_replicate, mul_shardSize htp]

theorem localRows_sharded (htp : 0 < tp) {x : List α} (hx : x.length = n) (value : α) :
    Sharded tp (shardSize tp n) n (fun r => localRows tp r (padToGroup tp x value)) x := by
  subst hx
  refine (Sharded.window value rfl (mul_shardSize htp x.length)).congr fun r _ => ?_
  rw [localRows, padToGroup_length htp, Nat.mul_div_cancel_left _ htp]
  rfl

theorem spReduceScatter_sharded {M : Type} [AddCommMonoid M] (htp : 0 < tp) {x : Nat → List M}
    (hx : ∀ q < tp, (x q).length = n) :
    Sharded tp (shardSize tp n) n (spReduceScatter tp x) (allReduceRows tp x) := by
  refine Sharded.reduceScatter htp (fun q hq => ?_) (fun q hq => ?_) ?_
  · rw [padToGroup_length htp, hx q hq]
  · rw [padToGroup, padRows, List.take_append_of_le_length (hx q hq).ge]
    exact List.take_of_length_le (hx q hq).le
  · have := mul_shardSize htp n
    omega

variable {size : Nat}

theorem gatherPacked_eq {a : Nat → List α} {b : Nat → List β} {fa : List α} {fb : List β}
    (ha : Sharded tp size n a fa) (hb : Sharded tp size n b fb) : gatherPacked tp a b n = (fa, fb) := by
  have hpacked : (allGatherRows tp fun r => (a r).zip (b r)).take n = fa.zip fb := (ha.zipWith hb Prod.mk).gather
  have hlen : fa.length = fb.length := ha.rows.trans hb.rows.symm
  rw [gatherPacked, hpacked]
  exact congrArg₂ Prod.mk (List.map_fst_zip hlen.le) (List.map_snd_zip hlen.ge)

/-- A local row is a row of the tensor, or the padding value. -/
theorem localRows_getElem? (htp : 0 < tp) {x : List α} (hx : x.length = n) (value : α) {r i : Nat} (hr : r < tp)
    (hi : i < shardSize tp n) :
    (localRows tp r (padToGroup tp x value))[i]? = some (x.getD (r * shardSize tp n + i) value) := by
  have hend : r * shardSize tp n + i < n + (-(n : Int) % (tp : Int)).toNat := by
    rw [mul_shardSize htp]
    exact block_lt hr hi
  rw [localRows, padToGroup_length htp, hx, Nat.mul_div_cancel_left _ htp, sliceAt, List.getElem?_take, if_pos hi,
    List.getElem?_drop, padToGroup, padRows, List.getD_eq_getElem?_getD, hx]
  by_cases hreal : r * shardSize tp n + i < n
  · have hin : r * shardSize tp n + i < x.length := by rwa [hx]
    rw [List.getElem?_append_left hin, List.getElem?_eq_getElem hin]
    rfl
  · have hrep : r * shardSize tp n + i - n < (-(n : Int) % (tp : Int)).toNat := by omega
    rw [List.getElem?_append_right (by omega), hx, List.getElem?_replicate, if_pos hrep,
      List.getElem?_eq_none (by omega)]
    rfl

/-- The local mask marks what the global mask marks and every row from the token count on. -/
theorem spPaddingMask_spec (htp : 0 < tp) {isPadding : Option (List Bool)}
    (hmask : ∀ b, isPadding = some b → b.length = n) {r i : Nat} (hr : r < tp) (hi : i < shardSize tp n) :
    (spPaddingMask tp r isPadding n)[i]? =
      some (decide (n ≤ r * shardSize tp n + i) || (isPadding.getD []).getD (r * shardSize tp n + i) false) := by
  have hlen : (isPadding.getD (List.replicate n false)).length = n := by
    cases isPadding with
    | none => simp
    | some b => exact hmask b rfl
  rw [spPaddingMask, localRows_getElem? htp hlen true hr hi]
  by_cases hreal : r * shardSize tp n + i < n
  · cases isPadding with
    | none => simp [hreal]
    | some b =>
      have hb : r * shardSize tp n + i < b.length := by rwa [hmask b rfl]
      simp [hreal, hb]
  · rw [List.getD_eq_getElem?_getD, List.getElem?_eq_none (by omega)]
    simp [Nat.le_of_not_lt hreal]

end

/-! ## The modules -/

section
variable {hc : Nat} {H I : Type} {tp size n : Nat}

/-- The three tensors of a mix, shard by shard. -/
structure Sharded3 {α β γ : Type} (tp size n : Nat) (x : Nat → List α × List β × List γ) (full : List α × List β × List γ) :
    Prop where
  fst : Sharded tp size n (fun r => (x r).1) full.1
  snd : Sharded tp size n (fun r => (x r).2.1) full.2.1
  trd : Sharded tp size n (fun r => (x r).2.2) full.2.2

theorem columns_sharded {α β γ : Type} {x : Nat → List (α × β × γ)} {full : List (α × β × γ)}
    (h : Sharded tp size n x full) : Sharded3 tp size n (fun r => columns (x r)) (columns full) :=
  ⟨h.map _, h.map _, h.map _⟩

/-- A state of the replicated run: the rows that every rank holds. -/
structure FullState (hc : Nat) (H I : Type) where
  hidden : List (Streams hc H)
  pending : Option (List H × List I)

def FullState.everywhere (full : FullState hc H I) : State hc H I :=
  ⟨fun _ => full.hidden, full.pending.map fun p => (fun _ => p.1, fun _ => p.2)⟩

/-- The shards of `s` hold the rows of `full`. -/
structure Tracks (tp size n : Nat) (s : State hc H I) (full : FullState hc H I) : Prop where
  hidden : Sharded tp size n s.hidden full.hidden
  pending : Option.Rel (fun p q => Sharded tp size n p.1 q.1 ∧ Sharded tp size n p.2 q.2) s.pending full.pending

/-- Two states of the sharded run that differ in padding rows only. -/
structure SameState (tp size n : Nat) (s' s : State hc H I) : Prop where
  hidden : SameRows tp size n s'.hidden s.hidden
  pending : Option.Rel (fun p q => SameRows tp size n p.1 q.1 ∧ SameRows tp size n p.2 q.2) s'.pending s.pending

theorem Tracks.of_sameState {s s' : State hc H I} {full : FullState hc H I} (h : Tracks tp size n s full)
    (hs : SameState tp size n s' s) : Tracks tp size n s' full := by
  obtain ⟨hidden, pending⟩ := s
  obtain ⟨hidden', pending'⟩ := s'
  obtain ⟨fhidden, fpending⟩ := full
  obtain ⟨hhid, hpend⟩ := h
  obtain ⟨hsame, hspend⟩ := hs
  refine ⟨hhid.of_sameRows hsame, ?_⟩
  cases hspend with
  | none => exact hpend
  | some hs =>
    cases hpend with
    | some hp => exact .some ⟨hp.1.of_sameRows hs.1, hp.2.of_sameRows hs.2⟩

variable {x : Nat → List (Streams hc H)} {fx : List (Streams hc H)} {o : Nat → List H} {fo : List H} {j : Nat → List I}
  {fj : List I}

theorem combineRows_sharded (m : HyperConnection hc H I) (hx : Sharded tp size n x fx) (ho : Sharded tp size n o fo)
    (hj : Sharded tp size n j fj) :
    Sharded tp size n (fun r => m.combineRows (x r) (o r) (j r)) (m.combineRows fx fo fj) :=
  hx.zipWith (ho.zipWith hj Prod.mk) _

theorem combineAndMixRows_sharded (m : HyperConnection hc H I) (hx : Sharded tp size n x fx) (ho : Sharded tp size n o fo)
    (hj : Sharded tp size n j fj) :
    Sharded3 tp size n (fun r => m.combineAndMixRows (x r) (some (o r, j r))) (m.combineAndMixRows fx (some (fo, fj))) :=
  columns_sharded (hx.zipWith (ho.zipWith hj Prod.mk) _)

variable {s : State hc H I} {full : FullState hc H I}

theorem mixPending_sharded (m : HyperConnection hc H I) (h : Tracks tp size n s full) :
    ∃ fmix, (mixPending m full.everywhere = fun _ => fmix) ∧ Sharded3 tp size n (mixPending m s) fmix := by
  obtain ⟨hidden, pending⟩ := s
  obtain ⟨fhidden, fpending⟩ := full
  obtain ⟨hhid, hpend⟩ := h
  cases hpend with
  | none => exact ⟨_, rfl, columns_sharded (hhid.map _)⟩
  | some hp => exact ⟨_, rfl, combineAndMixRows_sharded m hhid hp.1 hp.2⟩

/-! ## One layer -/

/-- The context of the replicated run beside `g`. -/
def Context.replicated (g : Context) (isPadding : Option (List Bool)) : Context :=
  { g with hcSp := false, isPadding := fun _ => isPadding }

/-- Tensors of all ranks: shards beside the rows that every rank holds. -/
def Beside {α : Type} (tp size n : Nat) (a b : Nat → List α) : Prop := ∃ f, b = (fun _ => f) ∧ Sharded tp size n a f

/-- States of the two runs. -/
def Related (tp size n : Nat) (s rep : State hc H I) : Prop :=
  ∃ full : FullState hc H I, rep = full.everywhere ∧ Tracks tp size n s full

theorem materialize_tracks (m : HyperConnection hc H I) (h : Tracks tp size n s full) :
    ∃ fh, materialize m full.everywhere = ⟨fun _ => fh, none⟩ ∧ (materialize m s).pending = none ∧
      Sharded tp size n (materialize m s).hidden fh := by
  obtain ⟨hidden, pending⟩ := s
  obtain ⟨fhidden, fpending⟩ := full
  obtain ⟨hhid, hpend⟩ := h
  cases hpend with
  | none => exact ⟨fhidden, rfl, rfl, hhid⟩
  | some hp => exact ⟨_, rfl, rfl, combineRows_sharded m hhid hp.1 hp.2⟩

variable {g : Context} {isPadding : Option (List Bool)}

/-- The final mixer gives every rank the rows and the MTP buffer of the replicated run. -/
theorem finish_eq (hsp : g.hcSp = true) (mixer : HyperConnection hc H I)
    (buffer : Option (Nat → List (Streams hc H))) {s rep : State hc H I}
    (h : Related g.tpSize size g.numTokens s rep) (r : Nat) :
    finish g mixer buffer s r = finish (g.replicated isPadding) mixer buffer rep r := by
  obtain ⟨full, rfl, h⟩ := h
  have hmix : ∃ fmix, (∀ q, mixer.combineAndMixRows (full.everywhere.hidden q)
        (full.everywhere.pending.map fun p => (p.1 q, p.2 q)) = fmix) ∧
      Sharded3 g.tpSize size g.numTokens
        (fun q => mixer.combineAndMixRows (s.hidden q) (s.pending.map fun p => (p.1 q, p.2 q))) fmix := by
    obtain ⟨hidden, pending⟩ := s
    obtain ⟨fhidden, fpending⟩ := full
    obtain ⟨hhid, hpend⟩ := h
    cases hpend with
    | none => exact ⟨_, fun _ => rfl, columns_sharded (hhid.map _)⟩
    | some hp => exact ⟨_, fun _ => rfl, combineAndMixRows_sharded mixer hhid hp.1 hp.2⟩
  obtain ⟨fmix, hrep, hshard⟩ := hmix
  cases buffer with
  | none => simp only [finish, hsp, if_true, hshard.snd.gather, hrep, Context.replicated, Bool.false_eq_true, if_false]
  | some buffer =>
    simp only [finish, hsp, if_true, gatherPacked_eq hshard.snd hshard.fst, hrep, Context.replicated, Bool.false_eq_true,
      if_false]

variable [AddCommMonoid H]

theorem applyPle_related (htp : 0 < g.tpSize) (hsp : g.hcSp = true) (m : HyperConnection hc H I)
    (ple : List Int → List Int → List Int → RowsFn (Streams hc H) (Streams hc H)) {s rep : State hc H I}
    (h : Related g.tpSize (shardSize g.tpSize g.numTokens) g.numTokens s rep) :
    Outcomes (Related g.tpSize (shardSize g.tpSize g.numTokens) g.numTokens) (applyPle g m ple s)
      (applyPle (g.replicated isPadding) m ple rep) := by
  obtain ⟨full, rfl, h⟩ := h
  obtain ⟨fh, hrep, hnone, hfh⟩ := materialize_tracks m h
  rw [applyPle, applyPle, hrep]
  simp only [Context.replicated, hsp, if_true, hfh.gather]
  cases g.inputIds with
  | none => exact .error _
  | some inputIds =>
    cases g.queryStartLoc with
    | none => exact .error _
    | some queryStartLoc =>
      cases g.ngramContext with
      | none => exact .error _
      | some ngramContext =>
        let out := (ple inputIds queryStartLoc ngramContext).apply fh
        have hout : Sharded g.tpSize (shardSize g.tpSize g.numTokens) g.numTokens (fun r => spShard g.tpSize r out) out :=
          localRows_sharded htp (((ple inputIds queryStartLoc ngramContext).rows fh).trans hfh.rows) 0
        refine .ok ⟨⟨if g.fusedPle then out else List.zipWith (· + ·) fh out, none⟩, rfl, ?_, by rw [hnone]; exact .none⟩
        cases g.fusedPle with
        | true => exact hout
        | false => exact hfh.zipWith hout _

theorem attention_related (htp : 0 < g.tpSize) (hsp : g.hcSp = true) (layer : DecoderLayer hc H I) {x : Nat → List H}
    {fx : List H} (h : Sharded g.tpSize (shardSize g.tpSize g.numTokens) g.numTokens x fx) :
    Outcomes (Beside g.tpSize (shardSize g.tpSize g.numTokens) g.numTokens) (attention g layer x)
      (attention (g.replicated isPadding) layer fun _ => fx) := by
  simp only [attention, Context.replicated, hsp, if_true, h.gather]
  cases layer.layerType with
  | linearAttention =>
    exact .ok ⟨_, rfl, spReduceScatter_sharded htp fun q _ => ((layer.linearAttn q).rows fx).trans h.rows⟩
  | fullAttention =>
    exact .ok ⟨_, rfl, spReduceScatter_sharded htp fun q _ => ((layer.selfAttn q g.positions).rows fx).trans h.rows⟩
  | other => exact .error _

/-- The masked rows of the shards. -/
def MaskSharded (g : Context) (isPadding : Option (List Bool)) : Prop :=
  Sharded g.tpSize (shardSize g.tpSize g.numTokens) g.numTokens
    (fun r => maskedRows g r (shardSize g.tpSize g.numTokens)) (maskedRows (g.replicated isPadding) 0 g.numTokens)

theorem mlpForward_related (htp : 0 < g.tpSize) (hsp : g.hcSp = true) (hmask : MaskSharded g isPadding) (mlp : Mlp H)
    {x : Nat → List H} {fx : List H} (h : Sharded g.tpSize (shardSize g.tpSize g.numTokens) g.numTokens x fx) :
    Beside g.tpSize (shardSize g.tpSize g.numTokens) g.numTokens (mlpForward g mlp x)
      (mlpForward (g.replicated isPadding) mlp fun _ => fx) := by
  cases mlp with
  | sparseMoe expert =>
    refine ⟨List.zipWith expert (maskedRows (g.replicated isPadding) 0 fx.length) fx, rfl, ?_⟩
    rw [h.rows]
    refine (hmask.zipWith h expert).congr fun r hr => ?_
    rw [mlpForward, h.length r hr]
  | dense part =>
    refine ⟨allReduceRows g.tpSize fun r => fx.map (part r), rfl, ?_⟩
    have hlen : (allReduceRows g.tpSize fun r => fx.map (part r)).length = g.numTokens := by
      simp [allReduceRows, h.rows]
    refine (localRows_sharded htp hlen 0).congr fun r _ => ?_
    simp only [mlpForward, hsp, if_true, h.gather]
    rfl

/-- One layer keeps the shards of the first run the rows of the second. -/
theorem decoderForward_related (htp : 0 < g.tpSize) (hsp : g.hcSp = true) (hmask : MaskSharded g isPadding)
    (layer : DecoderLayer hc H I) {s rep : State hc H I}
    (h : Related g.tpSize (shardSize g.tpSize g.numTokens) g.numTokens s rep) :
    Outcomes (Related g.tpSize (shardSize g.tpSize g.numTokens) g.numTokens) (decoderForward g layer s)
      (decoderForward (g.replicated isPadding) layer rep) := by
  have hple : Outcomes (Related g.tpSize (shardSize g.tpSize g.numTokens) g.numTokens) (enterLayer g layer s)
      (enterLayer (g.replicated isPadding) layer rep) := by
    rw [enterLayer, enterLayer]
    cases layer.ple with
    | none => exact .ok h
    | some ple => exact applyPle_related htp hsp layer.attnHyperConnection ple h
  refine hple.bind fun s rep h => ?_
  obtain ⟨full, rfl, h⟩ := h
  obtain ⟨fmix, hrep, hmix⟩ := mixPending_sharded layer.attnHyperConnection h
  rw [hrep]
  refine (attention_related htp hsp layer hmix.snd).bind fun attn attn' hattn => ?_
  obtain ⟨fattn, rfl, hattn⟩ := hattn
  have hcomb := combineAndMixRows_sharded layer.mlpHyperConnection hmix.fst hattn hmix.trd
  obtain ⟨fmlp, hmlp, hshard⟩ := mlpForward_related htp hsp hmask layer.mlp hcomb.snd
  refine .ok ⟨⟨_, some (fmlp, _)⟩, ?_, hcomb.fst, .some ⟨hshard, hcomb.trd⟩⟩
  rw [FullState.everywhere]
  exact congrArg (fun f => State.mk _ (some (f, _))) hmlp

/-! ## The model -/

theorem addDeepstack_related (htp : 0 < g.tpSize) (hsp : g.hcSp = true) (m : HyperConnection hc H I) {embed : List H}
    (hembed : embed.length = g.numTokens) {s rep : State hc H I}
    (h : Related g.tpSize (shardSize g.tpSize g.numTokens) g.numTokens s rep) :
    Related g.tpSize (shardSize g.tpSize g.numTokens) g.numTokens (addDeepstack g m embed s)
      (addDeepstack (g.replicated isPadding) m embed rep) := by
  obtain ⟨full, rfl, h⟩ := h
  obtain ⟨fh, hrep, _, hfh⟩ := materialize_tracks m h
  refine ⟨⟨List.zipWith (· + ·) fh (embed.map fun row _ => row), none⟩, ?_, ?_, .none⟩
  · rw [addDeepstack, hrep]
    rfl
  · simp only [addDeepstack, hsp, if_true]
    exact hfh.zipWith ((localRows_sharded htp hembed 0).map fun row (_ : Fin hc) => row) _

theorem runLayers_related (htp : 0 < g.tpSize) (hsp : g.hcSp = true) (hmask : MaskSharded g isPadding)
    {deepstack : Option (List (List H))} (hdeep : ∀ d, deepstack = some d → ∀ e ∈ d, e.length = g.numTokens) (start : Nat)
    (layers : List (DecoderLayer hc H I)) {s rep : State hc H I}
    (h : Related g.tpSize (shardSize g.tpSize g.numTokens) g.numTokens s rep) :
    Outcomes (Related g.tpSize (shardSize g.tpSize g.numTokens) g.numTokens) (runLayers g deepstack start layers s)
      (runLayers (g.replicated isPadding) deepstack start layers rep) := by
  refine Outcomes.foldlM (fun p _ s rep h => ?_) h
  refine (decoderForward_related htp hsp hmask p.1 h).bind fun s rep h => ?_
  cases hd : deepstack.bind (·[p.2]?) with
  | none => exact .ok h
  | some embed =>
    obtain ⟨d, hd, he⟩ := Option.bind_eq_some_iff.mp hd
    exact .ok (addDeepstack_related htp hsp p.1.mlpHyperConnection (hdeep d hd embed (List.mem_of_getElem? he)) h)

/-- The context with the flag, before and after its mask is aligned. -/
def Context.flagged (g : Context) (isPadding : Option (List Bool)) : Context :=
  { g with hcSp := true, isPadding := fun _ => isPadding }

def Context.sharded (g : Context) (isPadding : Option (List Bool)) : Context := alignPadding (g.flagged isPadding) g.numTokens

omit [AddCommMonoid H] in
theorem sharded_spec (htp : 0 < g.tpSize) (hmask : ∀ b, isPadding = some b → b.length = g.numTokens) :
    (g.sharded isPadding).hcSp = true ∧ (g.sharded isPadding).tpSize = g.tpSize ∧
    (g.sharded isPadding).numTokens = g.numTokens ∧ (g.sharded isPadding).replicated isPadding = g.replicated isPadding ∧
    MaskSharded (g.sharded isPadding) isPadding := by
  have hcov : g.numTokens ≤ g.tpSize * shardSize g.tpSize g.numTokens := by
    have := mul_shardSize htp g.numTokens
    omega
  obtain ⟨tp, flag, fused, skip, pad, positions, ids, queryStartLoc, ngram⟩ := g
  cases skip with
  | false => exact ⟨rfl, rfl, rfl, rfl, Sharded.replicate hcov false⟩
  | true =>
    have hlen : (isPadding.getD (List.replicate positions.length false)).length = positions.length := by
      cases isPadding with
      | none => simp
      | some b => exact hmask b rfl
    exact ⟨rfl, rfl, rfl, rfl, localRows_sharded htp hlen true⟩

theorem firstState_related (htp : 0 < g.tpSize) (hsp : g.hcSp = true) {embeds : List H}
    (hembeds : embeds.length = g.numTokens) :
    Related g.tpSize (shardSize g.tpSize g.numTokens) g.numTokens (firstState g embeds : State hc H I)
      (firstState (g.replicated isPadding) embeds) := by
  refine ⟨⟨embeds.map fun row _ => row, none⟩, rfl, ?_, .none⟩
  simp only [firstState, hsp, if_true]
  exact (localRows_sharded htp hembeds 0).map fun row (_ : Fin hc) => row

/-- The layers from any point of a run on, whatever the padding rows hold there. -/
theorem rest_related (htp : 0 < g.tpSize) (hsp : g.hcSp = true) (hmask : MaskSharded g isPadding)
    {deepstack : Option (List (List H))} (hdeep : ∀ d, deepstack = some d → ∀ e ∈ d, e.length = g.numTokens) (start : Nat)
    (layers : List (DecoderLayer hc H I)) (mixer : HyperConnection hc H I) (buffer : Option (Nat → List (Streams hc H)))
    {s rep : State hc H I} (h : Related g.tpSize (shardSize g.tpSize g.numTokens) g.numTokens s rep) :
    (runLayers g deepstack start layers s).map (finish g mixer buffer) =
      (runLayers (g.replicated isPadding) deepstack start layers rep).map (finish (g.replicated isPadding) mixer buffer) :=
  (runLayers_related htp hsp hmask hdeep start layers h).map_eq fun _ _ h => funext (finish_eq hsp mixer buffer h)

theorem modelForward_eq (m : Model hc H I) (g : Context) {inputsEmbeds : Option (List H)} {embeds : List H}
    (h : inputRows m g inputsEmbeds = .ok embeds) (deepstack : Option (List (List H)))
    (buffer : Option (Nat → List (Streams hc H))) :
    modelForward m g inputsEmbeds deepstack buffer =
      (runLayers (alignPadding g embeds.length) deepstack 0 m.layers (firstState (alignPadding g embeds.length) embeds)).map
        (finish (alignPadding g embeds.length) m.hyperConnectionMixer buffer) := by
  rw [modelForward, h]
  change (runLayers _ _ _ _ _ >>= _) = _
  cases runLayers (alignPadding g embeds.length) deepstack 0 m.layers (firstState (alignPadding g embeds.length) embeds) with
  | error e => rfl
  | ok s => rfl

theorem runLayers_append (g : Context) (deepstack : Option (List (List H))) (start : Nat)
    (before after : List (DecoderLayer hc H I)) (s : State hc H I) :
    runLayers g deepstack start (before ++ after) s =
      runLayers g deepstack start before s >>= runLayers g deepstack (start + before.length) after := by
  rw [runLayers, List.zipIdx_append, List.foldlM_append]
  rfl

/-- With the flag every rank returns the rows and writes the buffer of the run without it, in which
attention is all-reduced, or fails with the same error. The padding rows between any two layers can
be anything, and the local mask marks what the global mask marks and every row from the token count on. -/
theorem hc_sp_refines (m : Model hc H I) (htp : 0 < g.tpSize)
    (hmask : ∀ b, isPadding = some b → b.length = g.numTokens) {inputsEmbeds : Option (List H)}
    (hembeds : ∀ e, inputRows m g inputsEmbeds = .ok e → e.length = g.numTokens) {deepstack : Option (List (List H))}
    (hdeep : ∀ d, deepstack = some d → ∀ e ∈ d, e.length = g.numTokens)
    (buffer : Option (Nat → List (Streams hc H))) :
    let replicated := modelForward m (g.replicated isPadding) inputsEmbeds deepstack buffer
    modelForward m (g.flagged isPadding) inputsEmbeds deepstack buffer = replicated ∧
    (∀ embeds, inputRows m g inputsEmbeds = .ok embeds → ∀ before after, m.layers = before ++ after → ∀ s,
      runLayers (g.sharded isPadding) deepstack 0 before (firstState (g.sharded isPadding) embeds) = .ok s →
      ∀ s', SameState g.tpSize (shardSize g.tpSize g.numTokens) g.numTokens s' s →
        (runLayers (g.sharded isPadding) deepstack before.length after s').map
          (finish (g.sharded isPadding) m.hyperConnectionMixer buffer) = replicated) ∧
    ∀ r < g.tpSize, ∀ i < shardSize g.tpSize g.numTokens,
      (spPaddingMask g.tpSize r isPadding g.numTokens)[i]? =
        some (decide (g.numTokens ≤ r * shardSize g.tpSize g.numTokens + i) ||
          (isPadding.getD []).getD (r * shardSize g.tpSize g.numTokens + i) false) := by
  intro replicated
  obtain ⟨hsp, htpEq, hnum, hrep, hsharded⟩ := sharded_spec htp hmask
  have hids : ∀ g' : Context, g'.inputIds = g.inputIds → inputRows m g' inputsEmbeds = inputRows m g inputsEmbeds := by
    intro g' h
    simp only [inputRows, h]
  cases hin : inputRows m g inputsEmbeds with
  | error e =>
    have herr : ∀ g' : Context, g'.inputIds = g.inputIds → modelForward m g' inputsEmbeds deepstack buffer = .error e := by
      intro g' h
      rw [modelForward, hids g' h, hin]
      rfl
    refine ⟨(herr (g.flagged isPadding) rfl).trans (herr (g.replicated isPadding) rfl).symm, nofun, fun r hr i hi => ?_⟩
    exact spPaddingMask_spec htp hmask hr hi
  | ok embeds =>
    have hlen := hembeds embeds hin
    have hreplicated : replicated = (runLayers (g.replicated isPadding) deepstack 0 m.layers
        (firstState (g.replicated isPadding) embeds)).map (finish (g.replicated isPadding) m.hyperConnectionMixer buffer) :=
      modelForward_eq m (g.replicated isPadding) ((hids _ rfl).trans hin) deepstack buffer
    have hpos : 0 < (g.sharded isPadding).tpSize := by rwa [htpEq]
    have hdeep' : ∀ d, deepstack = some d → ∀ e ∈ d, e.length = (g.sharded isPadding).numTokens := by rwa [hnum]
    have hfirst : Related (g.sharded isPadding).tpSize (shardSize (g.sharded isPadding).tpSize (g.sharded isPadding).numTokens)
        (g.sharded isPadding).numTokens (firstState (g.sharded isPadding) embeds : State hc H I)
        (firstState ((g.sharded isPadding).replicated isPadding) embeds) :=
      firstState_related hpos hsp (hlen.trans hnum.symm)
    refine ⟨?_, fun embeds' hin' before after hlayers s hs s' hsame => ?_, fun r hr i hi => spPaddingMask_spec htp hmask hr hi⟩
    · have hrun := rest_related hpos hsp hsharded hdeep' 0 m.layers m.hyperConnectionMixer buffer hfirst
      have hmodel := modelForward_eq m (g.flagged isPadding) ((hids (g.flagged isPadding) rfl).trans hin) deepstack buffer
      rw [hlen] at hmodel
      rw [hrep] at hrun
      exact (hmodel.trans hrun).trans hreplicated.symm
    · obtain rfl : embeds = embeds' := Except.ok.inj hin'
      have hbefore := runLayers_related hpos hsp hsharded hdeep' 0 before hfirst
      rw [hs, hrep] at hbefore
      rw [hreplicated, hlayers, runLayers_append, Nat.zero_add]
      generalize hr : runLayers (g.replicated isPadding) deepstack 0 before (firstState (g.replicated isPadding) embeds) = x
        at hbefore ⊢
      cases hbefore with
      | ok h =>
        obtain ⟨full, rfl, htracks⟩ := h
        rw [← htpEq, ← hnum] at hsame
        have hrest := rest_related hpos hsp hsharded hdeep' before.length after m.hyperConnectionMixer buffer
          ⟨full, rfl, htracks.of_sameState hsame⟩
        rw [hrep] at hrest
        exact hrest

end

/-- A module of two integer streams. -/
def integerModule : HyperConnection 2 Int Int where
  combine w output injection := fun k => w k + injection * output + k
  mix w := (w, w 0 + w 1, 2 * w 1)
  combineAndMix w pending :=
    let w := match pending with
      | none => w
      | some (output, injection) => fun k => w k + injection * output + k
    (w, w 0 + w 1, 2 * w 1)

/-- A layer that adds a per-layer embedding if its attention is full. -/
def integerLayer (layerType : LayerType) (mlp : Mlp Int) : DecoderLayer 2 Int Int where
  layerType := layerType
  attnHyperConnection := integerModule
  mlpHyperConnection := integerModule
  ple := if layerType = .fullAttention then some fun _ _ _ => ⟨List.reverse, fun x => List.length_reverse⟩ else none
  linearAttn rank := ⟨List.map fun row => row * (rank + 1), fun x => List.length_map ..⟩
  selfAttn rank _ := ⟨fun x => (x.map fun row : Int => row - rank).reverse, fun x => by simp⟩
  mlp := mlp

def integerModel : Model 2 Int Int where
  layers := [integerLayer .linearAttention (.dense fun rank row => row + rank),
    integerLayer .fullAttention (.sparseMoe fun masked row => if masked then 0 else 3 * row)]
  hyperConnectionMixer := integerModule
  embedInputIds ids := ids

def integerContext : Context where
  tpSize := 2
  hcSp := false
  fusedPle := false
  skipPadding := true
  isPadding _ := none
  positions := [[0], [1], [2]]
  inputIds := some [4, 5, 6]
  queryStartLoc := some [0, 3]
  ngramContext := some []

theorem hc_sp_refines_three :
    modelForward integerModel (integerContext.flagged (some [false, false, true])) none (some [[7, 8, 9]])
        (some fun _ => List.replicate 4 0) =
      modelForward integerModel (integerContext.replicated (some [false, false, true])) none (some [[7, 8, 9]])
        (some fun _ => List.replicate 4 0) :=
  (hc_sp_refines (g := integerContext) integerModel (by decide)
    (fun b h => by cases h; rfl : ∀ b, some [false, false, true] = some b → b.length = integerContext.numTokens)
    (fun e h => by cases h; rfl) (fun d h e he => by cases h; cases List.mem_singleton.mp he; rfl) _).1

end VllmHcu.Qwen4Exp
