import VllmHcu.Step4.Forward
import VllmHcu.Lib.Commute
import VllmHcu.Step4.Summaries

/-!
# The fused kernel in any order of its loads and stores

A program stores to the pending rows of its own regions and loads from the
pending row of its request's first one. The rows of different regions differ, so
loads and stores of different programs commute, and every interleaving ends like
the programs run in order.
-/

/-!
## The fused verify kernel, load by load

A program of `_spec_summaries_kernel` gathers the keys and the gate values of its
region into registers, stores the summary and then writes the tail and the kept
region back. The key and the gate tensors are loaded and stored separately; the
programs of a launch interleave at these whole loads and stores.
-/

namespace VllmHcu.Step4

/-- A whole load or store of a program; `zed` says which of the two pending tensors it is on. -/
inductive KernelOp
  | load (zed : Bool)
  | storeSummary
  | storeTail (zed : Bool)
  | storeKeep (zed : Bool)

/-- The order of the loads and stores in the kernel. -/
def kernelProgram : List KernelOp :=
  [.load false, .load true, .storeSummary, .storeTail false, .storeTail true, .storeKeep false, .storeKeep true]

/-- One layer's tensors with the two pending tensors apart, and the registers `key` and `zed` of every program. -/
structure KernelState (γ σ : Type) where
  pending : Bool → Nat × Nat → γ
  summary : Nat → σ
  reg : Bool × Nat → Nat → γ

section
variable {γ σ : Type} (g : Step4DSAGeometry) (zero : γ) (compress : List (γ × γ) → σ) (sched : SpecSchedule)
  (tok : Bool → Nat → γ) (trash : Nat)

/-- The tensors as one layer's update sees them. -/
def KernelState.tensors (st : KernelState γ σ) : LayerTensors (γ × γ) σ :=
  ⟨fun c => (st.pending false c, st.pending true c), st.summary⟩

/-- The token rows, key and gate value together. -/
def tokens (t : Nat) : γ × γ := (tok false t, tok true t)

/-- The rows `_spec_summaries_kernel` writes from the registers: the tail of the request. -/
def tailStores (p : Nat) (vals : Nat → γ) : List ((Nat × Nat) × γ) :=
  let req := p / sched.nrm
  let pOut := sched.pendingOut req
  if p = sched.tailReg req ∧ pOut ≠ trash then rowWrites pOut ((List.range (sched.tail req)).map vals) else []

/-- And the region that is kept whole. -/
def keepStores (p : Nat) (vals : Nat → γ) : List ((Nat × Nat) × γ) :=
  let keep := sched.keepRows p
  if keep ≠ trash then rowWrites keep ((List.range g.regionSize).map vals) else []

def KernelOp.exec (p : Nat) : KernelOp → KernelState γ σ → KernelState γ σ
  | .load z, st =>
    { st with reg := Function.update st.reg (z, p) (kernelKey g zero sched (st.pending z) (tok z) p) }
  | .storeSummary, st =>
    let region := fun i => (st.reg (false, p) i, st.reg (true, p) i)
    if sched.live p then
      { st with summary :=
          Function.update st.summary (sched.slots p) (compressAt compress region 0 (sched.counts p)) }
    else st
  | .storeTail z, st =>
    { st with pending :=
        Function.update st.pending z (scatter (st.pending z) (tailStores sched trash p (st.reg (z, p)))) }
  | .storeKeep z, st =>
    { st with pending :=
        Function.update st.pending z (scatter (st.pending z) (keepStores g sched trash p (st.reg (z, p)))) }

/-- The programs of the launch. -/
def launchPrograms (p : Nat) : List KernelOp := if p < sched.numDecodes * sched.nrm then kernelProgram else []

/-- The positions of a region whose gathered values the program uses. -/
def Used (p i : Nat) : Prop :=
  sched.live p = true ∧ i < sched.counts p ∨
    p = sched.tailReg (p / sched.nrm) ∧ sched.pendingOut (p / sched.nrm) ≠ trash ∧ i < sched.tail (p / sched.nrm) ∨
    sched.keepRows p ≠ trash ∧ i < g.regionSize

/-- Position `i` of the region is loaded from the pending row of the request. -/
def LoadsPending (p i : Nat) : Prop := p % sched.nrm * g.regionSize + i < sched.head (p / sched.nrm)

end

end VllmHcu.Step4

namespace VllmHcu.Step4

open Step4PendingTable

section
variable {γ σ : Type} {g : Step4DSAGeometry} {md : Step4DSAMetadata} {t : Step4PendingTable}

/-! ## Rows of a program -/

theorem mem_keepStores {sched : SpecSchedule} {trash p : Nat} {vals : Nat → γ} {x : (Nat × Nat) × γ}
    (hx : x ∈ keepStores g sched trash p vals) : sched.keepRows p ≠ trash ∧ x.1.1 = sched.keepRows p := by
  unfold keepStores at hx
  dsimp only at hx
  split at hx
  · rename_i hk
    obtain ⟨i, _, rfl⟩ := mem_rowWrites.mp hx
    exact ⟨hk, rfl⟩
  · cases hx

theorem mem_tailStores {sched : SpecSchedule} {trash p : Nat} {vals : Nat → γ} {x : (Nat × Nat) × γ}
    (hx : x ∈ tailStores sched trash p vals) :
    p = sched.tailReg (p / sched.nrm) ∧ sched.pendingOut (p / sched.nrm) ≠ trash ∧
      x.1.1 = sched.pendingOut (p / sched.nrm) := by
  unfold tailStores at hx
  dsimp only at hx
  split at hx
  · rename_i hc
    obtain ⟨i, _, rfl⟩ := mem_rowWrites.mp hx
    exact ⟨hc.1, hc.2, rfl⟩
  · cases hx

/-- The pending rows of the regions of a batch: program `p` owns the row of its region. -/
def OwnsRow (g : Step4DSAGeometry) (md : Step4DSAMetadata) (t : Step4PendingTable) (p row : Nat) : Prop :=
  ∃ v ∈ md.aliveRows g, ∃ j < v.nregions g, p = v.row * g.nrm + j ∧ v.slot g j ∈ claims g (md.aliveRows g) ∧
    row = t.rowOf (v.slot g j)

theorem head_inv {r : Nat} (hr : (verifyVectors g md t).head r ≠ 0) :
    ∃ v ∈ md.aliveRows g, v.row = r ∧ (verifyVectors g md t).head r = v.head g := by
  have hmem : (r, (verifyVectors g md t).head r) ∈ (md.aliveRows g).map fun v => (v.row, v.head g) := by
    refine mem_of_scatter_ne (f := fun _ => 0) ?_ hr.symm
    simp only [verifyVectors, specVectors, List.map_map]
    rfl
  obtain ⟨v, hv, he⟩ := List.mem_map.mp hmem
  obtain ⟨hrow, hhead⟩ := Prod.mk.inj he
  exact ⟨v, hv, hrow, hhead.symm⟩

section
variable (hmap : ∀ s ∈ claims g (md.aliveRows g), ∃ row, t.rowOfSlot s = some row)
include hmap

theorem tailStores_owned {p : Nat} {vals : Nat → γ} {x : (Nat × Nat) × γ}
    (hx : x ∈ tailStores (verifyVectors g md t) t.capacity p vals) : OwnsRow g md t p x.1.1 := by
  obtain ⟨hp, hout, hrow⟩ := mem_tailStores hx
  obtain ⟨v, hv, hvr, ht, hp, hlast⟩ := tailReg_inv hmap hp hout
  refine ⟨v, hv, v.nbuf g / g.regionSize, ?_, hp, ?_, ?_⟩
  · rw [BatchRow.nregions_eq, if_neg ht]
    exact Nat.lt_succ_self _
  · rw [← BatchRow.lastSlot_eq ht]
    exact last_mem_claims (fun v hv => aliveRows_qlen md hv) hv ht
  · rw [hrow, ← BatchRow.lastSlot_eq ht, ← hlast, hvr]
    rfl

omit hmap in
theorem keepStores_owned {p : Nat} {vals : Nat → γ} {x : (Nat × Nat) × γ}
    (hx : x ∈ keepStores g (verifyVectors g md t) t.capacity p vals) : OwnsRow g md t p x.1.1 := by
  obtain ⟨hk, hrow⟩ := mem_keepStores hx
  obtain ⟨v, hv, hkeeps, j, hj, hp, he⟩ := keepRows_inv hk
  exact ⟨v, hv, j, BatchRow.lt_nregions hj, hp, kept_mem_claims (fun v hv => aliveRows_qlen md hv) hv hkeeps hj, hrow.trans he⟩

theorem loads_owned {p i : Nat} (h : LoadsPending g (verifyVectors g md t) p i) :
    OwnsRow g md t p ((verifyVectors g md t).pendingIn (p / g.nrm)) := by
  have hnrm : (verifyVectors g md t).nrm = g.nrm := rfl
  unfold LoadsPending at h
  rw [hnrm] at h
  have hnonzero : (verifyVectors g md t).head (p / g.nrm) ≠ 0 := by omega
  obtain ⟨v, hv, hrow, hhead⟩ := head_inv hnonzero
  have hlt := BatchRow.head_lt (g := g) (v := v)
  rw [hhead] at h
  have hj : p % g.nrm = 0 := by
    by_contra hne
    have := Nat.le_mul_of_pos_left g.regionSize (Nat.pos_of_ne_zero hne)
    omega
  have hh : v.head g ≠ 0 := by omega
  have hq := aliveRows_qlen md hv
  refine ⟨v, hv, 0, BatchRow.nregions_pos hq, ?_, ?_, ?_⟩
  · have hp := Nat.div_add_mod' p g.nrm
    rw [hrow, Nat.add_zero]
    omega
  · exact mem_claims.mpr ⟨v, hv, hq, .inl (BatchRow.mem_headSlots.mpr ⟨⟨hq, hh⟩, rfl⟩)⟩
  · rw [← hrow]
    exact verify_pendingIn hv hh hmap

variable (hex : ExclusiveRows g (md.aliveRows g)) (hwf : t.Wf)
include hex hwf

/-- Programs own different rows. -/
theorem OwnsRow.inj {p q row : Nat} (hp : OwnsRow g md t p row) (hq : OwnsRow g md t q row) : p = q := by
  obtain ⟨v, hv, j, hj, rfl, hclaim, rfl⟩ := hp
  obtain ⟨w, hw, j', hj', rfl, hclaim', he⟩ := hq
  obtain ⟨rfl, rfl⟩ := hex.slot_inj hv hw hj hj' (rowOf_inj hwf hmap hclaim hclaim' he)
  rfl

omit hmap hwf in
theorem slots_inj (h : md.VerifyBatch g) {p q : Nat} (hp : (verifyVectors g md t).live p = true)
    (hq : (verifyVectors g md t).live q = true) (he : (verifyVectors g md t).slots p = (verifyVectors g md t).slots q) : p = q := by
  obtain ⟨v, hv, j, hj, rfl⟩ := live_inv hp
  obtain ⟨w, hw, j', hj', rfl⟩ := live_inv hq
  have hlt := BatchRow.lt_nregions hj
  have hlt' := BatchRow.lt_nregions hj'
  rw [verify_slots h hv hlt, verify_slots h hw hlt'] at he
  obtain ⟨rfl, rfl⟩ := hex.slot_inj hv hw hlt hlt' he
  rfl

/-- What a program gathers does not change when another program stores. -/
theorem kernelKey_scatter {zero : γ} {P : Nat × Nat → γ} {tok : Nat → γ} {p q : Nat} (hpq : p ≠ q)
    {ws : List ((Nat × Nat) × γ)} (hws : ∀ x ∈ ws, OwnsRow g md t q x.1.1) :
    kernelKey g zero (verifyVectors g md t) (scatter P ws) tok p = kernelKey g zero (verifyVectors g md t) P tok p := by
  funext i
  unfold kernelKey
  dsimp only
  by_cases hload : LoadsPending g (verifyVectors g md t) p i
  · have hkeep : scatter P ws ((verifyVectors g md t).pendingIn (p / (verifyVectors g md t).nrm),
        p % (verifyVectors g md t).nrm * g.regionSize + i) =
        P ((verifyVectors g md t).pendingIn (p / (verifyVectors g md t).nrm),
          p % (verifyVectors g md t).nrm * g.regionSize + i) := by
      apply scatter_of_not_mem
      intro hm
      obtain ⟨x, hx, he⟩ := List.mem_map.mp hm
      have howns := hws x hx
      rw [he] at howns
      exact hpq (OwnsRow.inj hmap hex hwf (loads_owned hmap hload) howns)
    rw [hkeep]
  · unfold LoadsPending at hload
    rw [if_neg hload, if_neg hload]

theorem stores_comm {P : Nat × Nat → γ} {p q : Nat} (hpq : p ≠ q) {ws vs : List ((Nat × Nat) × γ)}
    (hws : ∀ x ∈ ws, OwnsRow g md t p x.1.1) (hvs : ∀ x ∈ vs, OwnsRow g md t q x.1.1) :
    scatter (scatter P ws) vs = scatter (scatter P vs) ws := by
  apply scatter_comm
  intro x hx y hy he
  have howns := hvs y hy
  rw [← he] at howns
  exact hpq (OwnsRow.inj hmap hex hwf (hws x hx) howns)

end

/-! ## Loads and stores commute -/

/-- A store of one program to a pending tensor, from its registers. -/
def KernelState.store (st : KernelState γ σ) (z : Bool) (p : Nat) (ws : (Nat → γ) → List ((Nat × Nat) × γ)) : KernelState γ σ :=
  { st with pending := Function.update st.pending z (scatter (st.pending z) (ws (st.reg (z, p)))) }

theorem KernelState.store_pending_ne {st : KernelState γ σ} {z z' : Bool} {p : Nat} {ws : (Nat → γ) → List ((Nat × Nat) × γ)}
    (hz : z' ≠ z) : (st.store z p ws).pending z' = st.pending z' := Function.update_of_ne hz ..

theorem KernelState.store_pending_self {st : KernelState γ σ} {z : Bool} {p : Nat} {ws : (Nat → γ) → List ((Nat × Nat) × γ)} :
    (st.store z p ws).pending z = scatter (st.pending z) (ws (st.reg (z, p))) := Function.update_self ..

section
variable (zero : γ) (compress : List (γ × γ) → σ) (tok : Bool → Nat → γ)

/-- One operation of a launch on the schedule of a batch. -/
def launchOp (g : Step4DSAGeometry) (md : Step4DSAMetadata) (t : Step4PendingTable) (p : Nat) (o : KernelOp)
    (st : KernelState γ σ) : KernelState γ σ :=
  o.exec g zero compress (verifyVectors g md t) tok t.capacity p st

/-- The stores of an operation, if it is one to a pending tensor. -/
inductive StoresBy (g : Step4DSAGeometry) (md : Step4DSAMetadata) (t : Step4PendingTable) (p : Nat) :
    KernelOp → Bool → ((Nat → γ) → List ((Nat × Nat) × γ)) → Prop
  | tail (z : Bool) : StoresBy g md t p (.storeTail z) z (tailStores (verifyVectors g md t) t.capacity p)
  | keep (z : Bool) : StoresBy g md t p (.storeKeep z) z (keepStores g (verifyVectors g md t) t.capacity p)

variable {zero compress tok} {p q : Nat} {z : Bool} {o : KernelOp} {ws : (Nat → γ) → List ((Nat × Nat) × γ)}

theorem StoresBy.exec (h : StoresBy g md t p o z ws) (st : KernelState γ σ) :
    launchOp zero compress tok g md t p o st = st.store z p ws := by
  cases h with
  | tail => rfl
  | keep => rfl

theorem load_load (hpq : p ≠ q) (z z' : Bool) (st : KernelState γ σ) :
    launchOp zero compress tok g md t q (.load z') (launchOp zero compress tok g md t p (.load z) st) =
      launchOp zero compress tok g md t p (.load z) (launchOp zero compress tok g md t q (.load z') st) := by
  have hne : ((z, p) : Bool × Nat) ≠ (z', q) := fun he => hpq (Prod.mk.inj he).2
  simp only [launchOp, KernelOp.exec]
  rw [Function.update_comm hne]

theorem load_summary (hpq : p ≠ q) (z : Bool) (st : KernelState γ σ) :
    launchOp zero compress tok g md t q .storeSummary (launchOp zero compress tok g md t p (.load z) st) =
      launchOp zero compress tok g md t p (.load z) (launchOp zero compress tok g md t q .storeSummary st) := by
  have hne : ∀ z', ((z', q) : Bool × Nat) ≠ (z, p) := fun z' he => hpq (Prod.mk.inj he).2.symm
  simp only [launchOp, KernelOp.exec]
  by_cases hl : (verifyVectors g md t).live q = true
  · rw [if_pos hl, if_pos hl]
    simp only [Function.update_of_ne (hne _)]
  · rw [if_neg hl, if_neg hl]

theorem summary_store (hq : StoresBy g md t q o z ws) (st : KernelState γ σ) :
    launchOp zero compress tok g md t q o (launchOp zero compress tok g md t p .storeSummary st) =
      launchOp zero compress tok g md t p .storeSummary (launchOp zero compress tok g md t q o st) := by
  rw [hq.exec, hq.exec]
  simp only [launchOp, KernelOp.exec]
  by_cases hl : (verifyVectors g md t).live p = true
  · rw [if_pos hl, if_pos hl]
    rfl
  · rw [if_neg hl, if_neg hl]

theorem summary_summary (h : md.VerifyBatch g) (hex : ExclusiveRows g (md.aliveRows g)) (hpq : p ≠ q) (st : KernelState γ σ) :
    launchOp zero compress tok g md t q .storeSummary (launchOp zero compress tok g md t p .storeSummary st) =
      launchOp zero compress tok g md t p .storeSummary (launchOp zero compress tok g md t q .storeSummary st) := by
  simp only [launchOp, KernelOp.exec]
  by_cases hp : (verifyVectors g md t).live p = true
  · by_cases hq : (verifyVectors g md t).live q = true
    · have hne : (verifyVectors g md t).slots p ≠ (verifyVectors g md t).slots q :=
        fun he => hpq (slots_inj hex h hp hq he)
      simp only [hp, hq, if_true]
      rw [Function.update_comm hne]
    · simp only [hp, hq, if_true, Bool.false_eq_true, if_false]
  · by_cases hq : (verifyVectors g md t).live q = true
    · simp only [hp, hq, if_true, Bool.false_eq_true, if_false]
    · simp only [hp, hq, Bool.false_eq_true, if_false]

variable (hmap : ∀ s ∈ claims g (md.aliveRows g), ∃ row, t.rowOfSlot s = some row)
include hmap

theorem StoresBy.owned (h : StoresBy g md t p o z ws) (vals : Nat → γ) : ∀ x ∈ ws vals, OwnsRow g md t p x.1.1 := by
  cases h with
  | tail =>
    intro x hx
    exact tailStores_owned hmap hx
  | keep =>
    intro x hx
    exact keepStores_owned hx

variable (hex : ExclusiveRows g (md.aliveRows g)) (hwf : t.Wf)
include hex hwf

theorem load_store (hpq : p ≠ q) (z' : Bool) (hq : StoresBy g md t q o z ws) (st : KernelState γ σ) :
    launchOp zero compress tok g md t q o (launchOp zero compress tok g md t p (.load z') st) =
      launchOp zero compress tok g md t p (.load z') (launchOp zero compress tok g md t q o st) := by
  have hne : ((z, q) : Bool × Nat) ≠ (z', p) := fun he => hpq (Prod.mk.inj he).2.symm
  have hkey : kernelKey g zero (verifyVectors g md t) ((st.store z q ws).pending z') (tok z') p =
      kernelKey g zero (verifyVectors g md t) (st.pending z') (tok z') p := by
    by_cases hz : z' = z
    · subst hz
      rw [KernelState.store_pending_self]
      exact kernelKey_scatter hmap hex hwf hpq (hq.owned hmap _)
    · rw [KernelState.store_pending_ne hz]
  rw [hq.exec, hq.exec]
  simp only [launchOp, KernelOp.exec]
  rw [hkey]
  simp only [KernelState.store, Function.update_of_ne hne]

theorem store_store (hpq : p ≠ q) {o' : KernelOp} {z' : Bool} {ws' : (Nat → γ) → List ((Nat × Nat) × γ)}
    (hp : StoresBy g md t p o z ws) (hq : StoresBy g md t q o' z' ws') (st : KernelState γ σ) :
    launchOp zero compress tok g md t q o' (launchOp zero compress tok g md t p o st) =
      launchOp zero compress tok g md t p o (launchOp zero compress tok g md t q o' st) := by
  rw [hp.exec, hp.exec, hq.exec, hq.exec]
  by_cases hz : z = z'
  · subst hz
    have hcomm := stores_comm hmap hex hwf (P := st.pending z) hpq (hp.owned hmap (st.reg (z, p))) (hq.owned hmap (st.reg (z, q)))
    simp only [KernelState.store, Function.update_self, Function.update_idem]
    rw [hcomm]
  · have hz' : z' ≠ z := fun he => hz he.symm
    simp only [KernelState.store, Function.update_of_ne hz, Function.update_of_ne hz', Function.update_comm hz]

/-- Operations of different programs commute. -/
theorem launchOp_comm (h : md.VerifyBatch g) (hpq : p ≠ q) (o o' : KernelOp) (st : KernelState γ σ) :
    launchOp zero compress tok g md t q o' (launchOp zero compress tok g md t p o st) =
      launchOp zero compress tok g md t p o (launchOp zero compress tok g md t q o' st) := by
  cases o with
  | load z =>
    cases o' with
    | load z' => exact load_load hpq z z' st
    | storeSummary => exact load_summary hpq z st
    | storeTail z' => exact load_store hmap hex hwf hpq z (.tail z') st
    | storeKeep z' => exact load_store hmap hex hwf hpq z (.keep z') st
  | storeSummary =>
    cases o' with
    | load z' => exact (load_summary hpq.symm z' st).symm
    | storeSummary => exact summary_summary h hex hpq st
    | storeTail z' => exact summary_store (.tail z') st
    | storeKeep z' => exact summary_store (.keep z') st
  | storeTail z =>
    cases o' with
    | load z' => exact (load_store hmap hex hwf hpq.symm z' (.tail z) st).symm
    | storeSummary => exact (summary_store (.tail z) st).symm
    | storeTail z' => exact store_store hmap hex hwf hpq (.tail z) (.tail z') st
    | storeKeep z' => exact store_store hmap hex hwf hpq (.tail z) (.keep z') st
  | storeKeep z =>
    cases o' with
    | load z' => exact (load_store hmap hex hwf hpq.symm z' (.keep z) st).symm
    | storeSummary => exact (summary_store (.keep z) st).symm
    | storeTail z' => exact store_store hmap hex hwf hpq (.keep z) (.tail z') st
    | storeKeep z' => exact store_store hmap hex hwf hpq (.keep z) (.keep z') st

end

/-! ## One program on its own -/

section
variable {α β : Type}

theorem tailStores_map (f : α → β) (sched : SpecSchedule) (trash p : Nat) (vals : Nat → α) :
    (tailStores sched trash p vals).map (fun w => (w.1, f w.2)) = tailStores sched trash p fun i => f (vals i) := by
  unfold tailStores
  dsimp only
  split
  · simp only [rowWrites_map, List.map_map]
    rfl
  · rfl

theorem keepStores_map (f : α → β) (sched : SpecSchedule) (trash p : Nat) (vals : Nat → α) :
    (keepStores g sched trash p vals).map (fun w => (w.1, f w.2)) = keepStores g sched trash p fun i => f (vals i) := by
  unfold keepStores
  dsimp only
  split
  · simp only [rowWrites_map, List.map_map]
    rfl
  · rfl

theorem kernelKey_map (f : α → β) (zero : α) (sched : SpecSchedule) (P : Nat × Nat → α) (index : Nat → α) (p i : Nat) :
    f (kernelKey g zero sched P index p i) = kernelKey g (f zero) sched (fun c => f (P c)) (fun x => f (index x)) p i := by
  unfold kernelKey
  dsimp only
  rw [apply_ite f, apply_ite f]

end

section
variable (zero : γ) (compress : List (γ × γ) → σ) (tok : Bool → Nat → γ)

/-- The registers of a program that runs alone hold what it gathers at its start. -/
theorem runAlone_reg (p : Nat) (st : KernelState γ σ) (z : Bool) :
    (runAlone (launchOp zero compress tok g md t) p kernelProgram st).reg (z, p) =
      kernelKey g zero (verifyVectors g md t) (st.pending z) (tok z) p := by
  have hsum : ∀ s : KernelState γ σ, (launchOp zero compress tok g md t p .storeSummary s).reg = s.reg := by
    intro s
    simp only [launchOp, KernelOp.exec]
    split <;> rfl
  have hload : (runAlone (launchOp zero compress tok g md t) p kernelProgram st).reg =
      (launchOp zero compress tok g md t p .storeSummary
        (launchOp zero compress tok g md t p (.load true) (launchOp zero compress tok g md t p (.load false) st))).reg := rfl
  rw [hload, hsum]
  cases z <;> simp [launchOp, KernelOp.exec]

/-- One component of a gathered pair is what the kernel gathers from that component's tensors. -/
theorem kernelKey_pair (p : Nat) (st : KernelState γ σ) :
    kernelKey g (zero, zero) (verifyVectors g md t) st.tensors.pending (tokens tok) p = fun i =>
      (kernelKey g zero (verifyVectors g md t) (st.pending false) (tok false) p i,
        kernelKey g zero (verifyVectors g md t) (st.pending true) (tok true) p i) := by
  funext i
  apply Prod.ext
  · exact kernelKey_map Prod.fst (zero, zero) _ st.tensors.pending (tokens tok) p i
  · exact kernelKey_map Prod.snd (zero, zero) _ st.tensors.pending (tokens tok) p i

theorem runAlone_pending (p : Nat) (st : KernelState γ σ) (z : Bool) :
    (runAlone (launchOp zero compress tok g md t) p kernelProgram st).pending z = scatter (st.pending z)
      (tailStores (verifyVectors g md t) t.capacity p (kernelKey g zero (verifyVectors g md t) (st.pending z) (tok z) p) ++
        keepStores g (verifyVectors g md t) t.capacity p (kernelKey g zero (verifyVectors g md t) (st.pending z) (tok z) p)) := by
  rw [scatter_append]
  by_cases hl : (verifyVectors g md t).live p = true
  · cases z <;> simp [runAlone, kernelProgram, launchOp, KernelOp.exec, hl]
  · cases z <;> simp [runAlone, kernelProgram, launchOp, KernelOp.exec, hl]

theorem runAlone_summary (p : Nat) (st : KernelState γ σ) :
    (runAlone (launchOp zero compress tok g md t) p kernelProgram st).summary =
      (specSummariesProgram g (zero, zero) compress (verifyVectors g md t) (tokens tok) t.capacity st.tensors p).summary := by
  have hsummary : (specSummariesProgram g (zero, zero) compress (verifyVectors g md t) (tokens tok) t.capacity st.tensors p).summary =
      if (verifyVectors g md t).live p then
        Function.update st.summary ((verifyVectors g md t).slots p)
          (compressAt compress (kernelKey g (zero, zero) (verifyVectors g md t) st.tensors.pending (tokens tok) p) 0
            ((verifyVectors g md t).counts p))
      else st.summary := rfl
  rw [hsummary, kernelKey_pair]
  by_cases hl : (verifyVectors g md t).live p = true
  · simp [runAlone, kernelProgram, launchOp, KernelOp.exec, hl]
  · simp [runAlone, kernelProgram, launchOp, KernelOp.exec, hl]

/-- A component of the pending rows after the kernel's program. -/
theorem program_pending_map (f : γ × γ → γ) (p : Nat) (st : KernelState γ σ) (c : Nat × Nat) :
    f ((specSummariesProgram g (zero, zero) compress (verifyVectors g md t) (tokens tok) t.capacity st.tensors p).pending c) =
      scatter (fun c => f (st.tensors.pending c))
        (tailStores (verifyVectors g md t) t.capacity p
          (fun i => f (kernelKey g (zero, zero) (verifyVectors g md t) st.tensors.pending (tokens tok) p i)) ++
        keepStores g (verifyVectors g md t) t.capacity p
          (fun i => f (kernelKey g (zero, zero) (verifyVectors g md t) st.tensors.pending (tokens tok) p i))) c := by
  rw [← tailStores_map, ← keepStores_map, ← List.map_append]
  exact congrFun (comp_scatter f _ st.tensors.pending) c

/-- A program that runs alone has the effect of the kernel's program on the layer. -/
theorem runAlone_tensors (p : Nat) (st : KernelState γ σ) :
    (runAlone (launchOp zero compress tok g md t) p kernelProgram st).tensors =
      specSummariesProgram g (zero, zero) compress (verifyVectors g md t) (tokens tok) t.capacity st.tensors p := by
  have hpair : ∀ c, ((runAlone (launchOp zero compress tok g md t) p kernelProgram st).pending false c,
      (runAlone (launchOp zero compress tok g md t) p kernelProgram st).pending true c) =
      (specSummariesProgram g (zero, zero) compress (verifyVectors g md t) (tokens tok) t.capacity st.tensors p).pending c := by
    intro c
    rw [runAlone_pending, runAlone_pending]
    apply Prod.ext
    · rw [program_pending_map zero compress tok Prod.fst, kernelKey_pair]
      rfl
    · rw [program_pending_map zero compress tok Prod.snd, kernelKey_pair]
      rfl
  unfold KernelState.tensors
  rw [runAlone_summary]
  congr 1
  exact funext hpair

theorem launchOp_reg_other {p q : Nat} (hpq : q ≠ p) (o : KernelOp) (z : Bool) (st : KernelState γ σ) :
    (launchOp zero compress tok g md t q o st).reg (z, p) = st.reg (z, p) := by
  cases o with
  | load z' =>
    have hne : ((z, p) : Bool × Nat) ≠ (z', q) := fun he => hpq (Prod.mk.inj he).2.symm
    simp only [launchOp, KernelOp.exec]
    rw [Function.update_of_ne hne]
  | storeSummary =>
    simp only [launchOp, KernelOp.exec]
    split <;> rfl
  | storeTail z' => rfl
  | storeKeep z' => rfl

theorem runAlone_reg_other {p q : Nat} (hpq : q ≠ p) (z : Bool) : ∀ (ops : List KernelOp) (st : KernelState γ σ),
    (runAlone (launchOp zero compress tok g md t) q ops st).reg (z, p) = st.reg (z, p)
  | [], _ => rfl
  | o :: ops, st => (runAlone_reg_other hpq z ops _).trans (launchOp_reg_other zero compress tok hpq o z st)

end

/-! ## The launch -/

/-- Two results of one update agree outside the trash row. -/
theorem Updated.agree {κ : Type} {compress : List κ → σ} {rows : List BatchRow} {index : Nat → κ} {T T₁ T₂ : LayerTensors κ σ}
    (h₁ : Updated compress g rows t index T T₁) (h₂ : Updated compress g rows t index T T₂) :
    T₁.summary = T₂.summary ∧ ∀ row ≠ t.capacity, ∀ i < g.regionSize, T₁.pending (row, i) = T₂.pending (row, i) := by
  constructor
  · funext s
    by_cases hs : ∃ v ∈ rows, ∃ j < v.nbuf g / g.regionSize, s = v.slot g j
    · obtain ⟨v, hv, j, hj, rfl⟩ := hs
      have hw : SummaryWrite compress g rows (fun v => v.token g t T.pending index) (v.slot g j, _) := .closed hv hj
      exact (h₁.stored _ hw).trans (h₂.stored _ hw).symm
    · have hnot : ∀ v ∈ rows, ∀ j < v.nbuf g / g.regionSize, s ≠ v.slot g j :=
        fun v hv j hj he => hs ⟨v, hv, j, hj, he⟩
      rw [h₁.summary_other s hnot, h₂.summary_other s hnot]
  · intro row htrash i hi
    by_cases hkeep : ∃ v ∈ rows, v.Keeps g ∧ ∃ j < v.nbuf g / g.regionSize, row = t.rowOf (v.slot g j)
    · obtain ⟨v, hv, hk, j, hj, rfl⟩ := hkeep
      have hw : PendingWrite g rows t (fun v => v.token g t T.pending index) ((t.rowOf (v.slot g j), i), _) := .keep hv hk hj hi
      exact (h₁.written _ hw).trans (h₂.written _ hw).symm
    · by_cases htail : ∃ v ∈ rows, i < v.tail g ∧ row = t.rowOf (v.lastSlot g)
      · obtain ⟨v, hv, hit, rfl⟩ := htail
        have hw : PendingWrite g rows t (fun v => v.token g t T.pending index) ((t.rowOf (v.lastSlot g), i), _) := .tail hv hit
        exact (h₁.written _ hw).trans (h₂.written _ hw).symm
      · have hnk : ∀ v ∈ rows, v.Keeps g → ∀ j < v.nbuf g / g.regionSize, row ≠ t.rowOf (v.slot g j) :=
          fun v hv hk j hj he => hkeep ⟨v, hv, hk, j, hj, he⟩
        have hnt : ∀ v ∈ rows, i < v.tail g → row ≠ t.rowOf (v.lastSlot g) := fun v hv hit he => htail ⟨v, hv, hit, he⟩
        rw [h₁.pending_other row i htrash hnk hnt, h₂.pending_other row i htrash hnk hnt]

section
variable (zero : γ) (compress : List (γ × γ) → σ) (tok : Bool → Nat → γ)
  (hmap : ∀ s ∈ claims g (md.aliveRows g), ∃ row, t.rowOfSlot s = some row)
  (hex : ExclusiveRows g (md.aliveRows g)) (hwf : t.Wf) (h : md.VerifyBatch g)
include hmap hex hwf h

theorem launch_sequential {tr : List (Nat × KernelOp)} (htr : Interleaves (launchPrograms (verifyVectors g md t)) tr)
    {order : List Nat} (hnd : order.Nodup) (hcover : ∀ p < md.numDecodes * g.nrm, p ∈ order) (st : KernelState γ σ) :
    runTrace (launchOp zero compress tok g md t) st tr =
      order.foldl (fun s p => runAlone (launchOp zero compress tok g md t) p (launchPrograms (verifyVectors g md t) p) s) st := by
  apply htr.sequential _ hnd
  · intro p hp
    apply hcover
    by_contra hlt
    exact hp (if_neg hlt)
  · intro x _ y _ hne s
    exact launchOp_comm hmap hex hwf h hne x.2 y.2 s

/-- Any interleaving leaves the tensors as the kernel's programs run in order do. -/
theorem launch_tensors {tr : List (Nat × KernelOp)} (htr : Interleaves (launchPrograms (verifyVectors g md t)) tr)
    (st : KernelState γ σ) :
    (runTrace (launchOp zero compress tok g md t) st tr).tensors =
      updateSummariesSpecFused g (zero, zero) compress (verifyVectors g md t) (tokens tok) t.capacity st.tensors := by
  rw [launch_sequential zero compress tok hmap hex hwf h htr List.nodup_range (fun p hp => List.mem_range.mpr hp)]
  unfold updateSummariesSpecFused
  have hn : (verifyVectors g md t).numDecodes * (verifyVectors g md t).nrm = md.numDecodes * g.nrm := rfl
  rw [hn]
  have hprefix : ∀ n ≤ md.numDecodes * g.nrm, ((List.range n).foldl (fun s p => runAlone (launchOp zero compress tok g md t) p
      (launchPrograms (verifyVectors g md t) p) s) st).tensors =
        (List.range n).foldl (specSummariesProgram g (zero, zero) compress (verifyVectors g md t) (tokens tok) t.capacity)
          st.tensors := by
    intro n hn
    induction n with
    | zero => rfl
    | succ n ih =>
      have hprog : launchPrograms (verifyVectors g md t) n = kernelProgram := if_pos (Nat.lt_of_succ_le hn)
      rw [List.range_succ, List.foldl_append, List.foldl_append, List.foldl_cons, List.foldl_nil, List.foldl_cons,
        List.foldl_nil, hprog, runAlone_tensors, ih (by omega)]
  exact hprefix _ (Nat.le_refl _)

/-- In any interleaving a program gathers what it would gather alone. -/
theorem launch_reg {tr : List (Nat × KernelOp)} (htr : Interleaves (launchPrograms (verifyVectors g md t)) tr)
    (st : KernelState γ σ) {p : Nat} (hp : p < md.numDecodes * g.nrm) (z : Bool) :
    (runTrace (launchOp zero compress tok g md t) st tr).reg (z, p) =
      kernelKey g zero (verifyVectors g md t) (st.pending z) (tok z) p := by
  have hmem : p ∈ List.range (md.numDecodes * g.nrm) := List.mem_range.mpr hp
  have hnd : (p :: (List.range (md.numDecodes * g.nrm)).erase p).Nodup := by
    rw [List.nodup_cons]
    exact ⟨List.nodup_range.not_mem_erase, List.nodup_range.erase p⟩
  have hcover : ∀ q < md.numDecodes * g.nrm, q ∈ p :: (List.range (md.numDecodes * g.nrm)).erase p := by
    intro q hq
    by_cases hqp : q = p
    · exact hqp ▸ List.mem_cons_self ..
    · exact List.mem_cons_of_mem _ ((List.mem_erase_of_ne hqp).mpr (List.mem_range.mpr hq))
  have hprog : launchPrograms (verifyVectors g md t) p = kernelProgram := if_pos hp
  rw [launch_sequential zero compress tok hmap hex hwf h htr hnd hcover, List.foldl_cons, hprog,
    ← runAlone_reg zero compress tok p st z]
  generalize runAlone (launchOp zero compress tok g md t) p kernelProgram st = st'
  have hrest : ∀ q ∈ (List.range (md.numDecodes * g.nrm)).erase p, q ≠ p := by
    intro q hq he
    exact List.nodup_range.not_mem_erase (he ▸ hq)
  generalize (List.range (md.numDecodes * g.nrm)).erase p = rest at hrest
  induction rest generalizing st' with
  | nil => rfl
  | cons q rest ih =>
    rw [List.foldl_cons, ih _ fun q hq => hrest q (List.mem_cons_of_mem _ hq)]
    exact runAlone_reg_other zero compress tok (hrest q (List.mem_cons_self ..)) z _ st'

omit hex hwf in
/-- Where a gathered value is used it is the entry of the unfused buffer. -/
theorem gathered_eq_buffer {P : Nat × Nat → γ × γ} {index : Nat → γ × γ} {p i : Nat}
    (hu : Used g (verifyVectors g md t) t.capacity p i) :
    kernelKey g (zero, zero) (verifyVectors g md t) P index p i =
      specBuffer g (zero, zero) (verifyVectors g md t) P index (p * g.regionSize + i) := by
  have hnrm : (verifyVectors g md t).nrm = g.nrm := rfl
  have hkey : ∃ v ∈ md.aliveRows g, ∃ j < v.nregions g, p = v.row * g.nrm + j ∧ j * g.regionSize + i < v.nbuf g := by
    rcases hu with ⟨hl, hi⟩ | ⟨hp, hout, hi⟩ | ⟨hk, hi⟩
    · obtain ⟨v, hv, j, hj, rfl⟩ := live_inv hl
      rw [verify_counts h hv hj] at hi
      exact ⟨v, hv, j, BatchRow.lt_nregions hj, rfl, full_lt_nbuf hj hi⟩
    · rw [hnrm] at hp hout hi
      obtain ⟨v, hv, hrow, ht, hp, -⟩ := tailReg_inv hmap hp hout
      rw [← hrow, verify_tail hv] at hi
      refine ⟨v, hv, _, ?_, hp, tail_lt_nbuf hi⟩
      rw [BatchRow.nregions_eq, if_neg ht]
      exact Nat.lt_succ_self _
    · obtain ⟨v, hv, -, j, hj, hp, -⟩ := keepRows_inv hk
      exact ⟨v, hv, j, BatchRow.lt_nregions hj, hp, full_lt_nbuf hj hi⟩
  obtain ⟨v, hv, j, hj, rfl, hm⟩ := hkey
  have hpos : (v.row * g.nrm + j) * g.regionSize + i = v.row * (g.nrm * g.regionSize) + (j * g.regionSize + i) := by
    rw [Nat.add_mul, Nat.mul_assoc, Nat.add_assoc]
  rw [kernelKey_eq h hv hmap hj hm, hpos, specBuffer_at h hv hmap hm]

end

/-- The end `fin` of a fused launch beside the unfused update of the same layer. -/
structure KernelMatchesUnfused (g : Step4DSAGeometry) (zero : γ) (compress : List (γ × γ) → σ) (sched : SpecSchedule)
    (tok : Bool → Nat → γ) (trash : Nat) (st fin : KernelState γ σ) : Prop where
  gathered : ∀ p < sched.numDecodes * sched.nrm, ∀ i, Used g sched trash p i →
    (fin.reg (false, p) i, fin.reg (true, p) i) =
      specBuffer g (zero, zero) sched st.tensors.pending (tokens tok) (p * g.regionSize + i)
  summary : fin.summary = (updateSummariesSpecUnfused g (zero, zero) compress sched (tokens tok) st.tensors).summary
  pending : ∀ row ≠ trash, ∀ i < g.regionSize, (fin.pending false (row, i), fin.pending true (row, i)) =
    (updateSummariesSpecUnfused g (zero, zero) compress sched (tokens tok) st.tensors).pending (row, i)
  noHazard : ∀ p q, p ≠ q → ∀ i, LoadsPending g sched p i → ∀ vals : Nat → γ,
    ∀ x ∈ tailStores sched trash q vals ++ keepStores g sched trash q vals, x.1.1 ≠ sched.pendingIn (p / sched.nrm)

/-- In any interleaving of the loads and stores of its programs, the fused kernel does what the unfused update does. -/
theorem spec_kernel_matches {completed : List Nat} {sched : SpecSchedule} {t' : Step4PendingTable} (hwf : t.Wf)
    (hs : specDecodeSchedule g md completed t = .ok (sched, t')) (h : md.VerifyBatch g)
    (hex : ExclusiveRows g (md.aliveRows g)) (zero : γ) (compress : List (γ × γ) → σ) (tok : Bool → Nat → γ)
    (st : KernelState γ σ) {tr : List (Nat × KernelOp)} (htr : Interleaves (launchPrograms sched) tr) :
    KernelMatchesUnfused g zero compress sched tok t.capacity st
      (runTrace (fun p o s => o.exec g zero compress sched tok t.capacity p s) st tr) := by
  rw [specDecodeSchedule_eq md completed hwf (longest_le h)] at hs
  obtain ⟨u, hc, he⟩ := map_eq_ok hs
  cases he
  obtain ⟨ht, -⟩ := claimed_rows (stepTable_wf hwf _) (claims_spec fun v hv => aliveRows_qlen md hv) hc
  have hcap : t.capacity = t'.capacity := by
    rw [ht.capacity, stepTable_capacity]
  rw [hcap] at htr ⊢
  have hsame : specVectors g md t'.capacity ((md.aliveRows g).map (specPlanOf g t')) ((md.aliveRows g).flatMap (·.completed g)) =
      verifyVectors g md t' := rfl
  rw [hsame] at htr ⊢
  have htensors := launch_tensors zero compress tok ht.mapped hex ht.wf h htr st
  have hfused : Updated compress g (md.aliveRows g) t' (tokens tok) st.tensors
      (updateSummariesSpecFused g (zero, zero) compress (verifyVectors g md t') (tokens tok) t'.capacity st.tensors) :=
    updated_specFused compress h ht.mapped hex ht.wf st.tensors
  have hunfused : Updated compress g (md.aliveRows g) t' (tokens tok) st.tensors
      (updateSummariesSpecUnfused g (zero, zero) compress (verifyVectors g md t') (tokens tok) st.tensors) :=
    updated_specUnfused compress h hex ht.wf ht.mapped
  have hagree := hfused.agree hunfused
  rw [← htensors] at hagree
  refine ⟨fun p hp i hu => ?_, hagree.1, hagree.2, fun p q hpq i hl vals x hx he => ?_⟩
  · have hreg := fun z => launch_reg zero compress tok ht.mapped hex ht.wf h htr st hp z
    rw [← gathered_eq_buffer zero ht.mapped h hu]
    apply Prod.ext
    · rw [kernelKey_map Prod.fst]
      exact congrFun (hreg false) i
    · rw [kernelKey_map Prod.snd]
      exact congrFun (hreg true) i
  · have howns : OwnsRow g md t' q x.1.1 := by
      rcases List.mem_append.mp hx with hx | hx
      · exact tailStores_owned ht.mapped hx
      · exact keepStores_owned hx
    rw [he] at howns
    exact hpq (OwnsRow.inj ht.mapped hex ht.wf (loads_owned ht.mapped hl) howns)

/-- Two requests of three tokens on regions of two; the first goes on with the region that it has begun. -/
theorem spec_kernel_matches_two :
    let g : Step4DSAGeometry := ⟨2, 4, 3, by decide, by decide⟩
    let md : Step4DSAMetadata := ⟨2, 0, 6, fun i => 3 * i, fun r => if r = 0 then 8 else 7, fun r _ => r + 1, none, 1⟩
    let table : Step4PendingTable := .single 8 6 3
    (md.aliveRows g).flatMap (·.headSlots g) = [6] ∧ ∃ sched table', specDecodeSchedule g md [] table = .ok (sched, table') ∧
      KernelMatchesUnfused g 0 (fun keys => keys.map fun k => k.1 * k.2) sched (fun _ t => t) 8
        ⟨fun _ _ => 7, fun _ => [], fun _ _ => 0⟩
        (runTrace (fun p o s => o.exec g 0 (fun keys => keys.map fun k => k.1 * k.2) sched (fun _ t => t) 8 p s)
          ⟨fun _ _ => 7, fun _ => [], fun _ _ => 0⟩
          ((List.range (sched.numDecodes * sched.nrm)).reverse.flatMap fun p =>
            (launchPrograms sched p).map fun o => (p, o))) := by
  intro g md table
  have hok : (specDecodeSchedule g md [] table).isOk = true := by decide
  obtain ⟨⟨sched, table'⟩, hs⟩ : ∃ r, specDecodeSchedule g md [] table = .ok r := by
    cases hr : specDecodeSchedule g md [] table with
    | ok r => exact ⟨r, rfl⟩
    | error e => rw [hr] at hok; cases hok
  refine ⟨by decide, sched, table', hs, ?_⟩
  refine spec_kernel_matches (Step4PendingTable.single_wf (by decide)) hs ⟨?_, ?_, by decide⟩ (by decide) 0 _ _ _ ?_
  · intro i _
    exact Nat.mul_le_mul_left 3 (Nat.le_succ i)
  · intro i _
    change 3 * (i + 1) - 3 * i ≤ 3
    omega
  · apply sequential_interleaves
    · rw [List.nodup_reverse]
      exact List.nodup_range
    · intro p hp
      rw [List.mem_reverse, List.mem_range]
      by_contra hn
      exact hp (if_neg hn)

end

end VllmHcu.Step4
