import VllmHcu.Cache.Writers
import VllmHcu.Lib.Cut
import VllmHcu.Lib.Loops
import VllmHcu.Lib.RowMajor

/-!
# What the cache writers leave in a cache

The addresses and the order of the stores are right for every shape. What goes
wrong are conversions: half values reach the kernels as `uint16_t`, and a plain cast
takes their bits for the value.
-/

namespace VllmHcu.Cache

namespace Writer

variable {D : Type} {w : Writer D} {Valid : D → Prop} {want : D → Nat → Nat → Nat}

theorem mem_visits {p : Nat × w.Store} : p ∈ w.visits ↔ p.1 < w.tokens ∧ 0 ≤ w.slotMapping p.1 ∧ p.2 ∈ w.stores := by
  obtain ⟨t, s⟩ := p
  simp [visits, List.pair_mem_product, and_assoc]

/-- A launch whose tokens have no slots stores nothing. -/
theorem idle (h : ∀ t < w.tokens, ¬0 ≤ w.slotMapping t) : w.Fills Valid want ∧ w.Apart := by
  have hvisits : w.visits = [] := List.eq_nil_iff_forall_not_mem.mpr fun p hp => h p.1 (mem_visits.mp hp).1 (mem_visits.mp hp).2.1
  constructor
  · intro data _ before ws hws
    rw [launch, hvisits, List.map_nil, List.perm_nil] at hws
    subst hws
    exact ⟨fun t ht hs => absurd hs (h t ht), List.nodup_nil, fun _ _ => rfl⟩
  · exact fun t ht _ _ hs => absurd hs (h t ht)

/-- Slots that lie one after another are apart. -/
theorem apart_of_rows (haddr : ∀ slot i, w.address slot i = (slot * w.cells + i : Nat)) (hd : w.Distinct) : w.Apart := by
  intro t ht t' _ hs hs' i hi i' hi' h
  rw [haddr, haddr] at h
  have h := Int.ofNat_inj.mp h
  have hslot := congrArg (· / w.cells) h
  have hcell := congrArg (· % w.cells) h
  simp only [block_div hi, block_div hi'] at hslot
  simp only [block_mod hi, block_mod hi'] at hcell
  refine ⟨hd t ht t' ‹_› hs ?_, hcell⟩
  unfold slot at hslot
  omega

variable (hcells : (w.stores.map w.cell).Perm (List.range w.cells))
include hcells

theorem cell_lt {s : w.Store} (hs : s ∈ w.stores) : w.cell s < w.cells :=
  List.mem_range.mp (hcells.mem_iff.mp (List.mem_map_of_mem hs))

theorem exists_store {i : Nat} (hi : i < w.cells) : ∃ s ∈ w.stores, w.cell s = i :=
  List.mem_map.mp (hcells.mem_iff.mpr (List.mem_range.mpr hi))

theorem visits_nodup : w.visits.Nodup := by
  have hstores : w.stores.Nodup := (hcells.nodup_iff.mpr List.nodup_range).of_map
  exact (List.nodup_range.filter _).product hstores

theorem cell_inj {s s' : w.Store} (hs : s ∈ w.stores) (hs' : s' ∈ w.stores) (h : w.cell s = w.cell s') : s = s' :=
  List.inj_on_of_nodup_map (hcells.nodup_iff.mpr List.nodup_range) hs hs' h

variable (hdst : ∀ slot, ∀ i < w.cells, w.dst slot i = w.address slot i)
include hdst

theorem Apart.launch_nodup (h : w.Apart) (data : D) : ((w.launch data).map Prod.fst).Nodup := by
  unfold launch
  rw [List.map_map]
  refine List.Nodup.map_on ?_ (visits_nodup hcells)
  intro p hp q hq heq
  obtain ⟨hpt, hps, hp⟩ := mem_visits.mp hp
  obtain ⟨hqt, hqs, hq⟩ := mem_visits.mp hq
  have hpc := cell_lt hcells hp
  have hqc := cell_lt hcells hq
  simp only [Function.comp_apply, hdst _ _ hpc, hdst _ _ hqc] at heq
  obtain ⟨ht, hc⟩ := h p.1 hpt q.1 hqt hps hqs _ hpc _ hqc heq
  exact Prod.ext ht (cell_inj hcells hp hq hc)

/-- A launch fills the slots exactly when their cells are apart and every store has the value wanted of its cell. -/
theorem fills_iff (hdata : ∃ data, Valid data) : w.Fills Valid want ↔ w.Apart ∧
    ∀ data, Valid data → ∀ t < w.tokens, 0 ≤ w.slotMapping t → ∀ s ∈ w.stores, w.value data t s = want data t (w.cell s) := by
  constructor
  · intro h
    have hstored : ∀ data, ∀ t < w.tokens, 0 ≤ w.slotMapping t → ∀ s ∈ w.stores,
        (w.address (w.slot t) (w.cell s), w.value data t s) ∈ w.launch data := by
      intro data t ht hs s hmem
      rw [← hdst _ _ (cell_lt hcells hmem)]
      exact List.mem_map.mpr ⟨(t, s), mem_visits.mpr ⟨ht, hs, hmem⟩, rfl⟩
    constructor
    · intro t ht t' ht' hs hs' i hi i' hi' heq
      obtain ⟨data, hv⟩ := hdata
      obtain ⟨-, hnodup, -⟩ := h data hv (fun _ => 0) _ (List.Perm.refl _)
      unfold launch at hnodup
      rw [List.map_map] at hnodup
      obtain ⟨s, hmem, rfl⟩ := exists_store hcells hi
      obtain ⟨s', hmem', rfl⟩ := exists_store hcells hi'
      rw [← hdst _ _ hi, ← hdst _ _ hi'] at heq
      have hsame := List.inj_on_of_nodup_map hnodup (mem_visits.mpr ⟨ht, hs, hmem⟩ : (t, s) ∈ w.visits)
        (mem_visits.mpr ⟨ht', hs', hmem'⟩ : (t', s') ∈ w.visits) heq
      cases hsame
      exact ⟨rfl, rfl⟩
    · intro data hv t ht hs s hmem
      obtain ⟨hfill, hnodup, -⟩ := h data hv (fun _ => 0) _ (List.Perm.refl _)
      rw [← hfill t ht hs _ (cell_lt hcells hmem)]
      exact (scatter_of_mem _ hnodup (hstored data t ht hs s hmem)).symm
  · intro ⟨hapart, hval⟩ data hv before ws hws
    have hnodup := (hws.map Prod.fst).nodup_iff.mpr (hapart.launch_nodup hcells hdst data)
    refine ⟨?_, hnodup, ?_⟩
    · intro t ht hs i hi
      obtain ⟨s, hmem, rfl⟩ := exists_store hcells hi
      rw [← hval data hv t ht hs s hmem, ← hdst _ _ hi]
      exact scatter_of_mem _ hnodup (hws.mem_iff.mpr (List.mem_map.mpr ⟨(t, s), mem_visits.mpr ⟨ht, hs, hmem⟩, rfl⟩))
    · intro p hp
      refine scatter_of_not_mem _ ?_
      intro hmem
      obtain ⟨v, hv, rfl⟩ := List.mem_map.mp hmem
      obtain ⟨q, hq, rfl⟩ := List.mem_map.mp (hws.mem_iff.mp hv)
      obtain ⟨ht, hs, hq⟩ := mem_visits.mp hq
      have hi := cell_lt hcells hq
      exact hp q.1 ht hs _ hi (hdst _ _ hi)

end Writer

/-! ## The loops of the threads -/

theorem threadLoops_perm {n blockDim : Nat} (h : 0 < n → 0 < blockDim) : (threadLoops n blockDim).Perm (List.range n) := by
  unfold threadLoops
  refine (List.Perm.flatMap_left _ fun p hp => strided_perm_filter _ (List.mem_range.mp hp)).trans ?_
  refine (flatMap_classes_perm _ _ _).trans ?_
  rw [List.filter_eq_self.mpr]
  intro x hx
  rw [List.mem_range] at hx
  simpa using Nat.mod_lt x (h (by omega))

/-! ## The conversions -/

section
variable {d : ScalarType} {kvDt : Fp8KVCacheDataType}

theorem reshapeConvert_eq (h : ¬ (d = .half ∧ kvDt = .kInt8)) : reshapeConvert kvDt d = quantise kvDt d := by
  cases d <;> cases kvDt <;> first | rfl | exact absurd ⟨rfl, rfl⟩ h

theorem mlaConvert_eq (h : kvDt ≠ .kInt8) : mlaConvert kvDt d = quantise kvDt d := by
  cases d <;> cases kvDt <;> first | rfl | exact absurd rfl h

/-- The pattern of one. -/
def one : (d : ScalarType) → BitVec d.bits
  | .float => 0x3F800000#32
  | .half => 0x3C00#16
  | .bfloat16 => 0x3F80#16

theorem one_finite : magnitude (numeric d (one d)) < fp32Inf := by
  cases d <;> decide

theorem zero_finite : magnitude (numeric d 0) < fp32Inf := by
  cases d <;> decide

theorem scale_one : 0 < (one .float).toNat ∧ (one .float).toNat < fp32Inf := by decide

/-- No quantiser takes one to what it takes zero to. -/
theorem quantise_one_ne : quantise kvDt d (one d) (one .float) ≠ quantise kvDt d 0 (one .float) := by
  cases d <;> cases kvDt <;> decide

/-- The bits of one half are 15360. -/
theorem reshapeConvert_ne (h : ¬ ¬ (d = .half ∧ kvDt = .kInt8)) :
    reshapeConvert kvDt d (one d) (one .float) ≠ quantise kvDt d (one d) (one .float) := by
  obtain ⟨rfl, rfl⟩ := not_not.mp h
  decide

theorem mlaConvert_ne (h : ¬ kvDt ≠ .kInt8) :
    mlaConvert kvDt d (one d) (one .float) ≠ quantise kvDt d (one d) (one .float) := by
  obtain rfl := not_not.mp h
  cases d <;> decide

/-- One element is right in every tensor exactly when its conversion is right and it is read where it lies. -/
theorem source_iff {conv : BitVec d.bits → BitVec 32 → Nat} {ok : Prop} (hgood : ok → conv = quantise kvDt d)
    (hbad : ¬ ok → conv (one d) (one .float) ≠ quantise kvDt d (one d) (one .float)) (p q : Int) (k : Nat) :
    (∀ x : Source d, x.Valid → conv (x.mem p) (x.scale k) = quantise kvDt d (x.mem q) (x.scale k)) ↔ ok ∧ p = q := by
  constructor
  · intro h
    have hok : ok := by
      by_contra hn
      exact hbad hn (h ⟨fun _ => one d, fun _ => one .float⟩ ⟨fun _ => one_finite, fun _ => scale_one⟩)
    refine ⟨hok, ?_⟩
    by_contra hne
    have hval := h ⟨fun a => if a = p then one d else 0, fun _ => one .float⟩ ⟨?_, fun _ => scale_one⟩
    · simp only [hgood hok, if_true, if_neg (Ne.symm hne)] at hval
      exact quantise_one_ne hval
    · intro a
      simp only
      split
      · exact one_finite
      · exact zero_finite
  · intro ⟨hok, hpq⟩ x _
    rw [hgood hok, hpq]

theorem exists_source : ∃ x : Source d, x.Valid := ⟨⟨fun _ => one d, fun _ => one .float⟩, fun _ => one_finite, fun _ => scale_one⟩

end

/-! ## The first writer -/

namespace ReshapeCall

variable (c : ReshapeCall) {d : ScalarType} {kvDt : Fp8KVCacheDataType}

/-- The elements wanted in the cells of a token. -/
def wanted (kvDt : Fp8KVCacheDataType) (x : Source d) (t i : Nat) : Nat := quantise kvDt d (x.mem (c.element t i)) (x.scale 0)

/-- The rows are read where they lie: heads are contiguous, and the stride is an `int`. -/
def ReadsRows : Prop :=
  ∀ t < c.tokens, 0 ≤ c.slotMapping t → ∀ i < c.numHeads * c.headSize, t * cInt c.stride0 + i = c.element t i

/-- Some element is cached. -/
def Busy : Prop := 0 < c.numHeads * c.headSize ∧ ∃ t < c.tokens, 0 ≤ c.slotMapping t

variable {c}

theorem loops_perm : (threadLoops (c.numHeads * c.headSize) (min (c.numHeads * c.headSize) 512)).Perm
    (List.range (c.numHeads * c.headSize)) := threadLoops_perm (by omega)

/-- The slot, the head and the offset from an address of either cache. -/
theorem digits_inj {a b e i i' j j' k k' : Nat} (hi : i < a) (hi' : i' < a) (hj : j < b) (hj' : j' < b) (hk : k < e) (hk' : k' < e)
    {n n' : Nat} (h : ((n * a + i) * b + j) * e + k = ((n' * a + i') * b + j') * e + k') : n = n' ∧ i = i' ∧ j = j' ∧ k = k' := by
  have hk₀ := congrArg (· % e) h
  simp only [block_mod hk, block_mod hk'] at hk₀
  have h₁ := congrArg (· / e) h
  simp only [block_div hk, block_div hk'] at h₁
  have hj₀ := congrArg (· % b) h₁
  simp only [block_mod hj, block_mod hj'] at hj₀
  have h₂ := congrArg (· / b) h₁
  simp only [block_div hj, block_div hj'] at h₂
  have hi₀ := congrArg (· % a) h₂
  simp only [block_mod hi, block_mod hi'] at hi₀
  have h₃ := congrArg (· / a) h₂
  simp only [block_div hi, block_div hi'] at h₃
  exact ⟨h₃, hi₀, hj₀, hk₀⟩

theorem headSize_pos {i : Nat} (hi : i < c.numHeads * c.headSize) : 0 < c.headSize := by
  refine Nat.pos_of_ne_zero ?_
  intro h
  rw [h, Nat.mul_zero] at hi
  exact absurd hi (Nat.not_lt_zero i)

section
variable (hb : 0 < c.blockSize) {s s' i i' : Nat} (hi : i < c.numHeads * c.headSize) (hi' : i' < c.numHeads * c.headSize)
include hb hi hi'

theorem keyAddress_inj (h : c.keyAddress s i = c.keyAddress s' i') : s = s' ∧ i = i' := by
  have hd := headSize_pos hi
  have hhead := Nat.div_lt_of_lt_mul (Nat.mul_comm c.numHeads _ ▸ hi)
  have hhead' := Nat.div_lt_of_lt_mul (Nat.mul_comm c.numHeads _ ▸ hi')
  have hform : ∀ s i, (c.keyAddress s i : Int) =
      ((((s / c.blockSize * c.numHeads + i / c.headSize) * c.blockSize + s % c.blockSize) * c.headSize + i % c.headSize : Nat) : Int) := by
    intro s i
    unfold keyAddress
    congr 1
    ring
  rw [hform, hform] at h
  obtain ⟨h₁, h₂, h₃, h₄⟩ := digits_inj hhead hhead' (Nat.mod_lt s hb) (Nat.mod_lt s' hb) (Nat.mod_lt i hd) (Nat.mod_lt i' hd)
    (Int.ofNat_inj.mp h)
  constructor
  · rw [← Nat.div_add_mod s c.blockSize, h₁, h₃, Nat.div_add_mod]
  · rw [← Nat.div_add_mod i c.headSize, h₂, h₄, Nat.div_add_mod]

theorem valueAddress_inj (h : c.valueAddress s i = c.valueAddress s' i') : s = s' ∧ i = i' := by
  have hd := headSize_pos hi
  have hhead := Nat.div_lt_of_lt_mul (Nat.mul_comm c.numHeads _ ▸ hi)
  have hhead' := Nat.div_lt_of_lt_mul (Nat.mul_comm c.numHeads _ ▸ hi')
  have hform : ∀ s i, (c.valueAddress s i : Int) =
      ((((s / c.blockSize * c.numHeads + i / c.headSize) * c.headSize + i % c.headSize) * c.blockSize + s % c.blockSize : Nat) : Int) := by
    intro s i
    unfold valueAddress
    congr 1
    ring
  rw [hform, hform] at h
  obtain ⟨h₁, h₂, h₃, h₄⟩ := digits_inj hhead hhead' (Nat.mod_lt i hd) (Nat.mod_lt i' hd) (Nat.mod_lt s hb) (Nat.mod_lt s' hb)
    (Int.ofNat_inj.mp h)
  constructor
  · rw [← Nat.div_add_mod s c.blockSize, h₁, h₄, Nat.div_add_mod]
  · rw [← Nat.div_add_mod i c.headSize, h₂, h₃, Nat.div_add_mod]

end

theorem slots_inj (hd : (c.keyWriter (d := d) kvDt).Distinct) {t t' : Nat} (ht : t < c.tokens) (ht' : t' < c.tokens)
    (hs : 0 ≤ c.slotMapping t) (hs' : 0 ≤ c.slotMapping t') (h : (c.slotMapping t).toNat = (c.slotMapping t').toNat) : t = t' :=
  hd t ht t' ht' hs (show c.slotMapping t = c.slotMapping t' by omega)

theorem key_apart (hb : 0 < c.blockSize) (hd : (c.keyWriter (d := d) kvDt).Distinct) : (c.keyWriter (d := d) kvDt).Apart := by
  intro t ht t' ht' hs hs' i hi i' hi' h
  obtain ⟨hslot, hcell⟩ := keyAddress_inj hb hi hi' h
  exact ⟨slots_inj hd ht ht' hs hs' hslot, hcell⟩

theorem value_apart (hb : 0 < c.blockSize) (hd : (c.keyWriter (d := d) kvDt).Distinct) : (c.valueWriter (d := d) kvDt).Apart := by
  intro t ht t' ht' hs hs' i hi i' hi' h
  obtain ⟨hslot, hcell⟩ := valueAddress_inj hb hi hi' h
  exact ⟨slots_inj hd ht ht' hs hs' hslot, hcell⟩

/-- Every element is right in every tensor exactly when the rows are read where they lie and their conversion is right. -/
theorem elements_iff : (∀ x : Source d, x.Valid → ∀ t < c.tokens, 0 ≤ c.slotMapping t →
      ∀ i ∈ threadLoops (c.numHeads * c.headSize) (min (c.numHeads * c.headSize) 512),
        reshapeConvert kvDt d (x.mem (t * cInt c.stride0 + (i : Nat))) (x.scale 0) = c.wanted kvDt x t i) ↔
    c.ReadsRows ∧ (c.Busy → ¬ (d = .half ∧ kvDt = .kInt8)) := by
  constructor
  · intro h
    have hone : ∀ t < c.tokens, 0 ≤ c.slotMapping t → ∀ i < c.numHeads * c.headSize,
        ¬ (d = .half ∧ kvDt = .kInt8) ∧ t * cInt c.stride0 + i = c.element t i := by
      intro t ht hs i hi
      refine (source_iff reshapeConvert_eq reshapeConvert_ne _ _ 0).mp ?_
      intro x hx
      exact h x hx t ht hs i (loops_perm.mem_iff.mpr (List.mem_range.mpr hi))
    refine ⟨fun t ht hs i hi => (hone t ht hs i hi).2, ?_⟩
    intro ⟨hpos, t, ht, hs⟩
    exact (hone t ht hs 0 hpos).1
  · intro ⟨hrows, hok⟩ x hx t ht hs i hi
    have hi := List.mem_range.mp (loops_perm.mem_iff.mp hi)
    exact (source_iff reshapeConvert_eq reshapeConvert_ne _ _ 0).mpr ⟨hok ⟨by omega, t, ht, hs⟩, hrows t ht hs i hi⟩ x hx

theorem key_fills_iff (hb : 0 < c.blockSize) (hd : (c.keyWriter (d := d) kvDt).Distinct) :
    (c.keyWriter (d := d) kvDt).Fills Source.Valid (c.wanted kvDt) ↔
      c.ReadsRows ∧ (c.Busy → ¬ (d = .half ∧ kvDt = .kInt8)) := by
  rw [Writer.fills_iff (by simpa [keyWriter] using loops_perm) (fun _ _ _ => rfl) exists_source]
  exact (and_iff_right (key_apart hb hd)).trans elements_iff

theorem value_fills_iff (hb : 0 < c.blockSize) (hd : (c.keyWriter (d := d) kvDt).Distinct) :
    (c.valueWriter (d := d) kvDt).Fills Source.Valid (c.wanted kvDt) ↔
      c.ReadsRows ∧ (c.Busy → ¬ (d = .half ∧ kvDt = .kInt8)) := by
  rw [Writer.fills_iff (by simpa [valueWriter, keyWriter] using loops_perm) (fun _ _ _ => rfl) exists_source]
  exact (and_iff_right (value_apart hb hd)).trans elements_iff

end ReshapeCall

/-! ## The second writer -/

namespace FlashCall

variable (c : FlashCall) {d : ScalarType} {kvDt : Fp8KVCacheDataType}

def wanted (kvDt : Fp8KVCacheDataType) (x : Source d) (t i : Nat) : Nat :=
  quantise kvDt d (x.mem (c.element t i)) (x.scale (c.scaleIndex i))

def Busy : Prop := 0 < c.numHeads * c.headSize ∧ ∃ t < c.tokens, 0 ≤ c.slotMapping t

variable {c}

theorem loops_perm : (threadLoops (c.numHeads * c.headSize) (min (c.numHeads * c.headSize) 256)).Perm
    (List.range (c.numHeads * c.headSize)) := threadLoops_perm (by omega)

theorem fills_iff : (c.writer (d := d) kvDt).Fills Source.Valid (c.wanted kvDt) ↔
    (c.writer (d := d) kvDt).Apart ∧ (c.Busy → ¬ (d = .half ∧ kvDt = .kInt8)) := by
  rw [Writer.fills_iff (by simpa [writer] using loops_perm) (fun _ _ _ => rfl) exists_source]
  refine and_congr_right fun _ => ?_
  constructor
  · intro h ⟨hpos, t, ht, hs⟩
    refine ((source_iff reshapeConvert_eq reshapeConvert_ne (c.element t 0) (c.element t 0) (c.scaleIndex 0)).mp ?_).1
    intro x hx
    exact h x hx t ht hs (0 : Nat) (loops_perm.mem_iff.mpr (List.mem_range.mpr hpos))
  · intro hok x hx t ht hs i hi
    have hi := List.mem_range.mp (loops_perm.mem_iff.mp hi)
    exact (source_iff reshapeConvert_eq reshapeConvert_ne _ _ _).mpr ⟨hok ⟨by omega, t, ht, hs⟩, rfl⟩ x hx

end FlashCall

/-! ## The third writer -/

namespace MlaCall

variable (c : MlaCall) {d : ScalarType} {kvDt : Fp8KVCacheDataType}

def wanted (kvDt : Fp8KVCacheDataType) (x : MlaSource d) (t i : Nat) : Nat := quantise kvDt d (c.element x t i) x.scale

/-- The rows are read where they lie: their elements are contiguous, and the strides are `int`s. -/
def ReadsRows : Prop :=
  ∀ t < c.tokens, 0 ≤ c.slotMapping t →
    (∀ i < c.kvLoraRank, t * cInt c.kvC0 + i = (t * c.kvC0 + i * c.kvC1 : Nat)) ∧
    ∀ i < c.peDim, t * cInt c.kPe0 + i = (t * c.kPe0 + i * c.kPe1 : Nat)

def Busy : Prop := ∃ t < c.tokens, 0 ≤ c.slotMapping t

/-- The strides of the cache are `int`s. -/
def IntStrides : Prop := c.blockStride < 2 ^ 31 ∧ c.entryStride < 2 ^ 31

variable {c}

theorem cInt_eq {x : Nat} (h : x < 2 ^ 31) : cInt x = x := by
  unfold cInt
  rw [BitVec.toInt_eq_toNat_of_lt, BitVec.toNat_ofNat, Nat.mod_eq_of_lt (by omega)]
  rw [BitVec.toNat_ofNat, Nat.mod_eq_of_lt (by omega)]
  omega

theorem entry_eq (h : c.IntStrides) (slot : Nat) : c.entry slot = c.entryAddress slot := by
  unfold entry entryAddress
  rw [cInt_eq h.1, cInt_eq h.2]
  push_cast
  rfl

theorem exists_source : ∃ x : MlaSource d, x.Valid :=
  ⟨⟨fun _ => one d, fun _ => one d, one .float⟩, fun _ => ⟨one_finite, one_finite⟩, scale_one⟩

theorem cells_perm (hr : 0 < c.kvLoraRank) :
    ((c.writer (d := d) kvDt).stores.map (c.writer (d := d) kvDt).cell).Perm (List.range (c.writer (d := d) kvDt).cells) := by
  have h₁ : (threadLoops c.kvLoraRank (min c.kvLoraRank 256)).Perm (List.range c.kvLoraRank) := threadLoops_perm (by omega)
  have h₂ : (threadLoops c.peDim (min c.kvLoraRank 256)).Perm (List.range c.peDim) := threadLoops_perm (by omega)
  simp only [writer, List.map_append, List.map_map, List.range_add]
  refine List.Perm.append ?_ ?_
  · simpa [Function.comp_def] using h₁
  · simpa [Function.comp_def, Nat.add_comm] using h₂.map (c.kvLoraRank + ·)

theorem kvC_iff (p q : Int) : (∀ x : MlaSource d, x.Valid → mlaConvert kvDt d (x.kvC p) x.scale = quantise kvDt d (x.kvC q) x.scale) ↔
    kvDt ≠ .kInt8 ∧ p = q := by
  rw [← source_iff mlaConvert_eq mlaConvert_ne p q 0]
  constructor
  · intro h x hx
    exact h ⟨x.mem, x.mem, x.scale 0⟩ ⟨fun p => ⟨hx.1 p, hx.1 p⟩, hx.2 0⟩
  · intro h x hx
    exact h ⟨x.kvC, fun _ => x.scale⟩ ⟨fun p => (hx.1 p).1, fun _ => hx.2⟩

theorem kPe_iff (p q : Int) : (∀ x : MlaSource d, x.Valid → mlaConvert kvDt d (x.kPe p) x.scale = quantise kvDt d (x.kPe q) x.scale) ↔
    kvDt ≠ .kInt8 ∧ p = q := by
  rw [← kvC_iff p q]
  constructor
  · intro h x hx
    exact h ⟨x.kPe, x.kvC, x.scale⟩ ⟨fun p => ⟨(hx.1 p).2, (hx.1 p).1⟩, hx.2⟩
  · intro h x hx
    exact h ⟨x.kPe, x.kvC, x.scale⟩ ⟨fun p => ⟨(hx.1 p).2, (hx.1 p).1⟩, hx.2⟩

theorem element_left (x : MlaSource d) (t : Nat) {i : Nat} (hi : i < c.kvLoraRank) :
    c.element x t i = x.kvC (t * c.kvC0 + i * c.kvC1 : Nat) := if_pos hi

theorem element_right (x : MlaSource d) (t i : Nat) :
    c.element x t (i + c.kvLoraRank) = x.kPe (t * c.kPe0 + i * c.kPe1 : Nat) := by
  unfold element
  rw [if_neg (by omega), Nat.add_sub_cancel]

theorem fills_iff (hr : 0 < c.kvLoraRank) (hs : c.IntStrides) (hl : c.lastStride = 1) :
    (c.writer (d := d) kvDt).Fills MlaSource.Valid (c.wanted kvDt) ↔
      (c.writer (d := d) kvDt).Apart ∧ c.ReadsRows ∧ (c.Busy → kvDt ≠ .kInt8) := by
  have hdst : ∀ slot, ∀ i < (c.writer (d := d) kvDt).cells,
      (c.writer (d := d) kvDt).dst slot i = (c.writer (d := d) kvDt).address slot i := by
    intro slot i _
    simp only [writer, entry_eq hs, hl, Nat.mul_one, Nat.cast_add]
  have h₁ : (threadLoops c.kvLoraRank (min c.kvLoraRank 256)).Perm (List.range c.kvLoraRank) := threadLoops_perm (by omega)
  have h₂ : (threadLoops c.peDim (min c.kvLoraRank 256)).Perm (List.range c.peDim) := threadLoops_perm (by omega)
  rw [Writer.fills_iff (cells_perm hr) hdst exists_source]
  refine and_congr_right fun _ => ?_
  constructor
  · intro h
    have hleft : ∀ t < c.tokens, 0 ≤ c.slotMapping t → ∀ i < c.kvLoraRank,
        kvDt ≠ .kInt8 ∧ t * cInt c.kvC0 + i = (t * c.kvC0 + i * c.kvC1 : Nat) := by
      intro t ht hs i hi
      refine (kvC_iff (d := d) _ _).mp ?_
      intro x hx
      rw [← element_left x t hi]
      exact h x hx t ht hs (.inl i : Nat ⊕ Nat)
        (List.mem_append_left _ (List.mem_map_of_mem (h₁.mem_iff.mpr (List.mem_range.mpr hi))))
    have hright : ∀ t < c.tokens, 0 ≤ c.slotMapping t → ∀ i < c.peDim,
        kvDt ≠ .kInt8 ∧ t * cInt c.kPe0 + i = (t * c.kPe0 + i * c.kPe1 : Nat) := by
      intro t ht hs i hi
      refine (kPe_iff (d := d) _ _).mp ?_
      intro x hx
      rw [← element_right x t i]
      exact h x hx t ht hs (.inr i : Nat ⊕ Nat)
        (List.mem_append_right _ (List.mem_map_of_mem (h₂.mem_iff.mpr (List.mem_range.mpr hi))))
    refine ⟨fun t ht hs => ⟨fun i hi => (hleft t ht hs i hi).2, fun i hi => (hright t ht hs i hi).2⟩, ?_⟩
    intro ⟨t, ht, hs⟩
    exact (hleft t ht hs 0 hr).1
  · intro ⟨hrows, hok⟩ x hx t ht hs s hmem
    have hok := hok ⟨t, ht, hs⟩
    obtain ⟨hkv, hpe⟩ := hrows t ht hs
    rcases List.mem_append.mp hmem with hmem | hmem
    · obtain ⟨i, hi, rfl⟩ := List.mem_map.mp hmem
      have hi := List.mem_range.mp (h₁.mem_iff.mp hi)
      have hval := (kvC_iff (d := d) _ _).mpr ⟨hok, hkv i hi⟩ x hx
      rwa [← element_left x t hi] at hval
    · obtain ⟨i, hi, rfl⟩ := List.mem_map.mp hmem
      have hi := List.mem_range.mp (h₂.mem_iff.mp hi)
      have hval := (kPe_iff (d := d) _ _).mpr ⟨hok, hpe i hi⟩ x hx
      rwa [← element_right x t i] at hval

/-! ## The packed format -/

/-- The cells of the scales of a thread's tile, stored by its first thread. -/
def scaleCells (thread : Nat) : List Nat :=
  if 64 ≤ thread then [] else if thread % 32 = 0 ∨ thread % 32 = 16 then (List.range 4).map fun b => dsCell (.scale thread b) else []

/-- The cells of its codes or values. -/
def elementCells (thread : Nat) : List Nat :=
  if 64 ≤ thread then (List.range 4).map fun b => dsCell (.rope thread b) else (List.range 8).map fun i => dsCell (.code thread i)

theorem dsStores_cells (thread : Nat) : (dsStores thread).map dsCell = scaleCells thread ++ elementCells thread := by
  unfold dsStores scaleCells elementCells
  by_cases h : 64 ≤ thread
  · simp [h, Function.comp_def]
  · by_cases hl : thread % 32 = 0 ∨ thread % 32 = 16 <;> simp [h, hl, Function.comp_def]

/-- Codes, scales and values fill the bytes of an entry. -/
theorem dsCells_perm : (((List.range 96).flatMap dsStores).map dsCell).Perm (List.range 656) := by
  have hscales : (List.range 96).flatMap scaleCells = List.range' 512 16 := by rfl
  have helements : (List.range 96).flatMap elementCells = List.range 512 ++ List.range' 528 128 := by decide +kernel
  have hall : List.range 656 = List.range 512 ++ (List.range' 512 16 ++ List.range' 528 128) := by
    have htail : List.range' 512 16 ++ List.range' 528 128 = List.range' 512 144 := List.range'_append_1
    rw [htail, List.range_eq_range', List.range_eq_range']
    exact (List.range'_append_1 (s := 0) (m := 512) (n := 144)).symm
  rw [List.map_flatMap, funext dsStores_cells, hall]
  refine (List.flatMap_append_perm _ _ _).symm.trans ?_
  rw [hscales, helements]
  exact List.perm_append_comm_assoc _ _ _

theorem shfl_le (v : Nat → Nat) {offset e lane : Nat} (he : e = 0 ∨ e = offset) : v (lane ^^^ e) ≤ shflMax v offset lane := by
  rcases he with rfl | rfl
  · rw [Nat.xor_zero]
    exact le_max_left _ _
  · exact le_max_right _ _

theorem shfl_mem (v : Nat → Nat) (offset lane : Nat) : ∃ e, (e = 0 ∨ e = offset) ∧ shflMax v offset lane = v (lane ^^^ e) := by
  rcases max_choice (v lane) (v (lane ^^^ offset)) with h | h
  · exact ⟨0, .inl rfl, by rw [Nat.xor_zero]; exact h⟩
  · exact ⟨offset, .inr rfl, h⟩

/-- Every thread of a tile is reached by flipping bits of the lane. -/
theorem lanes_reached {lane k : Nat} (hl : lane < 16) (hk : k < 16) : ∃ e₁ ∈ [0, 1], ∃ e₂ ∈ [0, 2], ∃ e₄ ∈ [0, 4], ∃ e₈ ∈ [0, 8],
    k = lane ^^^ e₁ ^^^ e₂ ^^^ e₄ ^^^ e₈ := by
  have hbits : ∀ m < 16, ∃ e₁ ∈ [0, 1], ∃ e₂ ∈ [0, 2], ∃ e₄ ∈ [0, 4], ∃ e₈ ∈ [0, 8], m = e₁ ^^^ (e₂ ^^^ (e₄ ^^^ e₈)) := by decide
  obtain ⟨e₁, h₁, e₂, h₂, e₄, h₄, e₈, h₈, hm⟩ := hbits (lane ^^^ k) (Nat.xor_lt_two_pow (n := 4) hl hk)
  refine ⟨e₁, h₁, e₂, h₂, e₄, h₄, e₈, h₈, ?_⟩
  rw [Nat.xor_assoc, Nat.xor_assoc, Nat.xor_assoc, ← hm, ← Nat.xor_assoc, Nat.xor_self, Nat.zero_xor]

theorem mem_pair {a b : Nat} : a ∈ [0, b] ↔ a = 0 ∨ a = b := by simp

theorem lanes_closed {lane e₁ e₂ e₄ e₈ : Nat} (hl : lane < 16) (h₁ : e₁ ∈ [0, 1]) (h₂ : e₂ ∈ [0, 2]) (h₄ : e₄ ∈ [0, 4])
    (h₈ : e₈ ∈ [0, 8]) : lane ^^^ e₁ ^^^ e₂ ^^^ e₄ ^^^ e₈ < 16 := by
  have hlt : ∀ b ≤ 8, ∀ e ∈ [0, b], e < 16 := by
    intro b hb e he
    rcases mem_pair.mp he with rfl | rfl <;> omega
  have hxor : ∀ a e : Nat, a < 16 → e < 16 → a ^^^ e < 16 := fun a e ha he => Nat.xor_lt_two_pow (n := 4) ha he
  exact hxor _ _ (hxor _ _ (hxor _ _ (hxor _ _ hl (hlt 1 (by decide) _ h₁)) (hlt 2 (by decide) _ h₂)) (hlt 4 (by decide) _ h₄))
    (hlt 8 (by decide) _ h₈)

/-- The butterfly leaves the largest value of the tile in each lane. -/
theorem tileMax_spec (v : Nat → Nat) {lane : Nat} (hl : lane < 16) :
    (∀ k < 16, v k ≤ tileMax v lane) ∧ ∃ k < 16, tileMax v lane = v k := by
  constructor
  · intro k hk
    obtain ⟨e₁, h₁, e₂, h₂, e₄, h₄, e₈, h₈, rfl⟩ := lanes_reached hl hk
    calc v (lane ^^^ e₁ ^^^ e₂ ^^^ e₄ ^^^ e₈) ≤ shflMax v 8 (lane ^^^ e₁ ^^^ e₂ ^^^ e₄) := shfl_le v (mem_pair.mp h₈)
      _ ≤ shflMax (shflMax v 8) 4 (lane ^^^ e₁ ^^^ e₂) := shfl_le _ (mem_pair.mp h₄)
      _ ≤ shflMax (shflMax (shflMax v 8) 4) 2 (lane ^^^ e₁) := shfl_le _ (mem_pair.mp h₂)
      _ ≤ tileMax v lane := shfl_le _ (mem_pair.mp h₁)
  · obtain ⟨e₁, h₁, he₁⟩ := shfl_mem (shflMax (shflMax (shflMax v 8) 4) 2) 1 lane
    obtain ⟨e₂, h₂, he₂⟩ := shfl_mem (shflMax (shflMax v 8) 4) 2 (lane ^^^ e₁)
    obtain ⟨e₄, h₄, he₄⟩ := shfl_mem (shflMax v 8) 4 (lane ^^^ e₁ ^^^ e₂)
    obtain ⟨e₈, h₈, he₈⟩ := shfl_mem v 8 (lane ^^^ e₁ ^^^ e₂ ^^^ e₄)
    refine ⟨_, lanes_closed hl (mem_pair.mpr h₁) (mem_pair.mpr h₂) (mem_pair.mpr h₄) (mem_pair.mpr h₈), ?_⟩
    exact he₁.trans (he₂.trans (he₄.trans he₈))

theorem max_eight (v : Nat → Nat) :
    (∀ k < 8, v k ≤ max (max (max (v 0) (v 1)) (max (v 2) (v 3))) (max (max (v 4) (v 5)) (max (v 6) (v 7)))) ∧
    ∃ k < 8, max (max (max (v 0) (v 1)) (max (v 2) (v 3))) (max (max (v 4) (v 5)) (max (v 6) (v 7))) = v k := by
  constructor
  · intro k hk
    have hcases : k = 0 ∨ k = 1 ∨ k = 2 ∨ k = 3 ∨ k = 4 ∨ k = 5 ∨ k = 6 ∨ k = 7 := by omega
    rcases hcases with rfl | rfl | rfl | rfl | rfl | rfl | rfl | rfl <;> simp only [le_max_iff, le_refl, true_or, or_true]
  · have hpair : ∀ a b : Nat, (∃ k < 8, a = v k) → (∃ k < 8, b = v k) → ∃ k < 8, max a b = v k := by
      intro a b ha hb
      rcases max_choice a b with h | h <;> rw [h]
      · exact ha
      · exact hb
    have hself : ∀ k < 8, ∃ k' < 8, v k = v k' := fun k hk => ⟨k, hk, rfl⟩
    refine hpair _ _ (hpair _ _ (hpair _ _ ?_ ?_) (hpair _ _ ?_ ?_)) (hpair _ _ (hpair _ _ ?_ ?_) (hpair _ _ ?_ ?_)) <;>
      exact hself _ (by decide)

theorem threadMax_spec (x : MlaSource d) (t thread : Nat) :
    (∀ k < 8, fabsf (castFloat d (c.nope x t (thread * 8 + k))) ≤ c.threadMax x t thread) ∧
    ∃ k < 8, c.threadMax x t thread = fabsf (castFloat d (c.nope x t (thread * 8 + k))) :=
  max_eight fun k => fabsf (castFloat d (c.nope x t (thread * 8 + k)))

/-- The scale of a thread is that of the largest cast of its tile. -/
theorem tileScale_eq (x : MlaSource d) (t thread : Nat) : c.tileScale x t thread =
    scaleOfMax (((List.range 128).map fun i => fabsf (castFloat d (c.nope x t (thread / 16 * 128 + i)))).foldr max 0) := by
  unfold tileScale
  refine congrArg scaleOfMax ?_
  obtain ⟨hle, lane, hlane, hmem⟩ := tileMax_spec (fun lane => c.threadMax x t (thread / 16 * 16 + lane)) (Nat.mod_lt thread (show 0 < 16 by decide))
  refine le_antisymm ?_ (foldr_max_le (Nat.zero_le _) ?_)
  · obtain ⟨k, hk, hmax⟩ := (threadMax_spec x t (thread / 16 * 16 + lane)).2
    rw [hmem, hmax]
    have hindex : thread / 16 * 128 + (lane * 8 + k) = (thread / 16 * 16 + lane) * 8 + k := by omega
    rw [← hindex]
    exact le_foldr_max (List.mem_map.mpr ⟨lane * 8 + k, List.mem_range.mpr (by omega), rfl⟩)
  · intro y hy
    obtain ⟨i, hi, rfl⟩ := List.mem_map.mp hy
    have hi := List.mem_range.mp hi
    refine le_trans ?_ (hle (i / 8) (by omega))
    have hthread := (threadMax_spec (c := c) x t (thread / 16 * 16 + i / 8)).1 (i % 8) (Nat.mod_lt i (by decide))
    have hindex : (thread / 16 * 16 + i / 8) * 8 + i % 8 = thread / 16 * 128 + i := by omega
    rwa [hindex] at hthread

variable (c) in
/-- The shape of a packed cache, with rows that are read where they lie. -/
structure Packed : Prop where
  rank : c.kvLoraRank = 512
  pe : c.peDim = 64
  item : c.itemsize = 1
  strides : c.IntStrides
  kvC0 : c.kvC0 < 2 ^ 31
  kPe0 : c.kPe0 < 2 ^ 31
  kvC1 : c.kvC1 = 1
  kPe1 : c.kPe1 = 1

theorem nope_eq (h : c.Packed) (x : MlaSource d) (t : Nat) {i : Nat} (hi : i < 512) : c.nope x t i = c.element x t i := by
  rw [element_left x t (by rw [h.rank]; exact hi), nope, cInt_eq h.kvC0, h.kvC1, Nat.mul_one]
  push_cast
  rfl

theorem pe_eq (h : c.Packed) (x : MlaSource d) (t i : Nat) : x.kPe (t * cInt c.kPe0 + (i : Nat)) = c.element x t (512 + i) := by
  have hright := element_right x t i (c := c)
  rw [h.rank, Nat.add_comm] at hright
  rw [hright, cInt_eq h.kPe0, h.kPe1, Nat.mul_one]
  push_cast
  rfl

/-- The scale of a thread's tile, when a cast gives the value. -/
theorem tileScale_wanted (h : c.Packed) (hd : castFloat d = numeric d) (x : MlaSource d) (t : Nat) {thread : Nat} (ht : thread < 64) :
    c.tileScale x t thread = c.wantedScale x t (thread / 16) := by
  rw [tileScale_eq, wantedScale, hd]
  refine congrArg scaleOfMax (congrArg (List.foldr max 0) (List.map_congr_left ?_))
  intro i hi
  have hi := List.mem_range.mp hi
  rw [nope_eq h x t (by omega)]

theorem mem_dsStores {s : DsStore} : s ∈ (List.range 96).flatMap dsStores ↔ match s with
    | .code thread i => thread < 64 ∧ i < 8
    | .scale thread b => thread < 64 ∧ thread % 16 = 0 ∧ b < 4
    | .rope thread b => 64 ≤ thread ∧ thread < 96 ∧ b < 4 := by
  simp only [List.mem_flatMap, List.mem_range, dsStores]
  constructor
  · intro ⟨thread, ht, hs⟩
    split at hs
    · obtain ⟨b, hb, rfl⟩ := List.mem_map.mp hs
      exact ⟨by assumption, ht, List.mem_range.mp hb⟩
    · rename_i hlow
      rcases List.mem_append.mp hs with hs | hs
      · split at hs
        · obtain ⟨b, hb, rfl⟩ := List.mem_map.mp hs
          exact ⟨by omega, by omega, List.mem_range.mp hb⟩
        · cases hs
      · obtain ⟨i, hi, rfl⟩ := List.mem_map.mp hs
        exact ⟨by omega, List.mem_range.mp hi⟩
  · intro h
    cases s with
    | code thread i =>
      refine ⟨thread, by omega, ?_⟩
      rw [if_neg (by omega)]
      exact List.mem_append_right _ (List.mem_map_of_mem (List.mem_range.mpr h.2))
    | scale thread b =>
      refine ⟨thread, by omega, ?_⟩
      rw [if_neg (by omega), if_pos (by omega)]
      exact List.mem_append_left _ (List.mem_map_of_mem (List.mem_range.mpr h.2.2))
    | rope thread b =>
      refine ⟨thread, h.2.1, ?_⟩
      rw [if_pos h.1]
      exact List.mem_map_of_mem (List.mem_range.mpr h.2.2)

theorem wantedByte_code (x : MlaSource d) (t : Nat) {i : Nat} (hi : i < 512) :
    c.wantedByte x t i = quantise .kFp8E4M3 d (c.element x t i) (c.wantedScale x t (i / 128)) := if_pos hi

theorem wantedByte_scale (x : MlaSource d) (t : Nat) {k : Nat} (hk : k < 16) :
    c.wantedByte x t (512 + k) = byteOf (c.wantedScale x t (k / 4)).toNat (k % 4) := by
  unfold wantedByte
  rw [if_neg (by omega), if_pos (by omega), Nat.add_sub_cancel_left]

theorem wantedByte_rope (x : MlaSource d) (t k : Nat) :
    c.wantedByte x t (528 + k) = byteOf (c.element x t (512 + k / 2)).toNat (k % 2) := by
  have hbyte : (528 + k) % 2 = k % 2 := by omega
  unfold wantedByte
  rw [if_neg (by omega), if_neg (by omega), Nat.add_sub_cancel_left, hbyte]

/-- Every byte of an entry, when a cast gives the value. -/
theorem dsValue_eq (h : c.Packed) (hd : castFloat d = numeric d) (x : MlaSource d) (t : Nat) {s : DsStore}
    (hs : s ∈ (List.range 96).flatMap dsStores) : c.dsWriter.value x t s = c.wantedByte x t (dsCell s) := by
  have hs := mem_dsStores.mp hs
  cases s with
  | code thread i =>
    obtain ⟨ht, hi⟩ := hs
    have htile : (thread * 8 + i) / 128 = thread / 16 := by omega
    change (scaledConvert .kFp8E4M3 d (c.nope x t (thread * 8 + i)) (c.tileScale x t thread)).toNat = c.wantedByte x t (thread * 8 + i)
    rw [wantedByte_code x t (by omega), htile, tileScale_wanted h hd x t ht, nope_eq h x t (by omega)]
    cases d <;> rfl
  | scale thread b =>
    obtain ⟨ht, hlane, hb⟩ := hs
    have hcell : dsCell (.scale thread b) = 512 + (thread / 16 * 4 + b) := by
      simp only [dsCell]
      omega
    have htile : (thread / 16 * 4 + b) / 4 = thread / 16 := by omega
    have hbyte : (thread / 16 * 4 + b) % 4 = b := by omega
    change byteOf (c.tileScale x t thread).toNat b = _
    rw [hcell, wantedByte_scale x t (by omega), htile, hbyte, tileScale_wanted h hd x t ht]
  | rope thread b =>
    obtain ⟨hlo, hhi, hb⟩ := hs
    have hcell : dsCell (.rope thread b) = 528 + ((thread - 64) * 4 + b) := by
      simp only [dsCell]
      omega
    have hindex : ((thread - 64) * 4 + b) / 2 = (thread - 64) * 2 + b / 2 := by omega
    have hbyte : ((thread - 64) * 4 + b) % 2 = b % 2 := by omega
    change byteOf (x.kPe (t * cInt c.kPe0 + ((thread - 64) * 2 + b / 2 : Nat))).toNat (b % 2) = _
    rw [hcell, wantedByte_rope, hindex, hbyte, pe_eq h]

/-- Ones in half precision give the scale of 15360. -/
theorem dsValue_ne (t : Nat) :
    c.dsWriter.value ⟨fun _ => one .half, fun _ => one .half, one .float⟩ t (.scale 0 0) ≠
      c.wantedByte ⟨fun _ => one .half, fun _ => one .half, one .float⟩ t (dsCell (.scale 0 0)) := by
  change byteOf (c.tileScale ⟨fun _ => one .half, fun _ => one .half, one .float⟩ t 0).toNat 0 ≠ c.wantedByte _ t (512 + 0)
  have helem : ∀ i, c.element ⟨fun _ => one .half, fun _ => one .half, one .float⟩ t i = one .half := by
    intro i
    unfold element
    split <;> rfl
  rw [wantedByte_scale _ t (by decide), tileScale_eq, wantedScale]
  simp only [helem, nope]
  decide +kernel

/-- Some accepted type reaches the packed writer. -/
theorem dsFills_iff (h : c.Packed) (hdt : dispatch d .fp8DsMla = some kvDt) :
    (c.dsWriter (d := d)).Fills MlaSource.Valid c.wantedByte ↔ (c.dsWriter (d := d)).Apart ∧ (c.Busy → d ≠ .half) := by
  have hdst : ∀ slot, ∀ i < (c.dsWriter (d := d)).cells, (c.dsWriter (d := d)).dst slot i = (c.dsWriter (d := d)).address slot i := by
    intro slot i _
    simp only [dsWriter, entry_eq h.strides, h.item, Nat.one_mul, Nat.cast_add]
  rw [Writer.fills_iff dsCells_perm hdst exists_source]
  refine and_congr_right fun _ => ?_
  constructor
  · intro hval ⟨t, ht, hs⟩ hd
    subst hd
    have hmem : DsStore.scale 0 0 ∈ (List.range 96).flatMap dsStores := mem_dsStores.mpr (by decide)
    exact dsValue_ne t (hval ⟨fun _ => one .half, fun _ => one .half, one .float⟩ ⟨fun _ => ⟨one_finite, one_finite⟩, scale_one⟩ t ht hs
      (.scale 0 0) hmem)
  · intro hd x _ t ht hs s hmem
    have hd := hd ⟨t, ht, hs⟩
    have hcast : castFloat d = numeric d := by
      cases d with
      | float => rfl
      | half => exact absurd rfl hd
      | bfloat16 => rfl
    exact dsValue_eq h hcast x t hmem

end MlaCall

/-- When each writer leaves the quantised elements in the cache, for a pair of types that is accepted. -/
structure WritersFill (d : ScalarType) (dt : KvCacheDtype) (kvDt : Fp8KVCacheDataType) : Prop where
  key : ∀ c : ReshapeCall, 0 < c.blockSize → (c.keyWriter (d := d) kvDt).Distinct →
    ((c.keyWriter (d := d) kvDt).Fills Source.Valid (c.wanted kvDt) ↔
      c.ReadsRows ∧ (c.Busy → ¬ (d = .half ∧ kvDt = .kInt8)))
  value : ∀ c : ReshapeCall, 0 < c.blockSize → (c.keyWriter (d := d) kvDt).Distinct →
    ((c.valueWriter (d := d) kvDt).Fills Source.Valid (c.wanted kvDt) ↔
      c.ReadsRows ∧ (c.Busy → ¬ (d = .half ∧ kvDt = .kInt8)))
  flash : ∀ c : FlashCall, (c.writer (d := d) kvDt).Fills Source.Valid (c.wanted kvDt) ↔
    (c.writer (d := d) kvDt).Apart ∧ (c.Busy → ¬ (d = .half ∧ kvDt = .kInt8))
  mla : ∀ c : MlaCall, dt ≠ .fp8DsMla → (c.Busy → 0 < c.kvLoraRank ∧ c.IntStrides ∧ c.lastStride = 1) →
    ((c.writer (d := d) kvDt).Fills MlaSource.Valid (c.wanted kvDt) ↔
      (c.writer (d := d) kvDt).Apart ∧ c.ReadsRows ∧ (c.Busy → kvDt ≠ .kInt8))
  packed : ∀ c : MlaCall, dt = .fp8DsMla → (c.Busy → c.Packed) →
    ((c.dsWriter (d := d)).Fills MlaSource.Valid c.wantedByte ↔ (c.dsWriter (d := d)).Apart ∧ (c.Busy → d ≠ .half))

/-- One token with one head of two elements. -/
def smallFlash : FlashCall := ⟨1, fun _ => 3, 1, 2, 2, 2, 4, 2, 2, false⟩

/-- A token with a latent part of one element, and with an entry of a packed cache. -/
def smallMla : MlaCall := ⟨1, fun _ => 3, 1, 1, 2, 1, 1, 1, 1, 4, 2, 1, 1⟩

def packedMla : MlaCall := ⟨1, fun _ => 3, 512, 64, 2, 512, 1, 64, 1, 1312, 656, 1, 1⟩

/-- Three tokens, of which the second is not cached. -/
def threeSlots : Nat → Int
  | 0 => 3
  | 1 => -1
  | _ => 1

def threeReshape : ReshapeCall := ⟨3, threeSlots, 1, 2, 2, 2, 2, 1⟩

def threeFlash : FlashCall := ⟨3, threeSlots, 1, 2, 2, 2, 4, 2, 2, false⟩

def threeMla : MlaCall := ⟨3, threeSlots, 1, 1, 2, 1, 1, 1, 1, 4, 2, 1, 2⟩

def threePacked : MlaCall := ⟨3, threeSlots, 512, 64, 2, 512, 1, 64, 1, 1312, 656, 1, 1⟩

end VllmHcu.Cache
