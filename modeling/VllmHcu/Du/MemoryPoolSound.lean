import VllmHcu.Du.MemoryPool

/-!
# The pool is always partitioned

Every call keeps the free and the allocated blocks a buddy partition of the
pinned memory. Between its steps a call holds one block back; splitting halves
that block and merging doubles it.
-/

namespace VllmHcu.Du

open Block

/-! ## Dictionaries -/

section
variable {d : List MemoryBlock}

theorem dictGet_some {addr : Int} {b : MemoryBlock} (h : dictGet d addr = some b) : b ∈ d ∧ b.addr = addr :=
  ⟨List.mem_of_find?_eq_some h, by simpa using List.find?_some h⟩

theorem dictGet_none {addr : Int} (h : dictGet d addr = none) {b : MemoryBlock} (hb : b ∈ d) : b.addr ≠ addr := by
  simpa using List.find?_eq_none.mp h b hb

theorem dictSet_new {b : MemoryBlock} (h : ∀ c ∈ d, c.addr ≠ b.addr) : dictSet d b = d ++ [b] := by
  unfold dictSet
  rw [if_neg]
  simpa using h

theorem mem_dictDel {addr : Int} {b : MemoryBlock} : b ∈ dictDel d addr ↔ b ∈ d ∧ b.addr ≠ addr := by
  simp [dictDel]

end

/-! ## Powers of two -/

namespace TensorMemoryPool

theorem bitLength_le {a k : Nat} : bitLength a ≤ k ↔ a < 2 ^ k := by
  unfold bitLength
  split
  · rename_i h
    subst h
    simp
  · rename_i h
    rw [Nat.add_one_le_iff]
    exact Nat.log2_lt h

theorem roundToPowerOfTwo_eq (n : Nat) : roundToPowerOfTwo n = 2 ^ bitLength (n - 1) := Nat.one_shiftLeft _

theorem le_roundToPowerOfTwo {n : Nat} (hn : 0 < n) : n ≤ roundToPowerOfTwo n := by
  rw [roundToPowerOfTwo_eq]
  have := bitLength_le.mp (Nat.le_refl (bitLength (n - 1)))
  omega

/-- A power of two that is not above the argument divides what it is rounded to. -/
theorem roundToPowerOfTwo_of_le {m n : Nat} (h : 2 ^ m ≤ n) : ∃ r, roundToPowerOfTwo n = 2 ^ m * 2 ^ r := by
  have hm : m ≤ bitLength (n - 1) := by
    have hle : 2 ^ m ≤ 2 ^ bitLength (n - 1) := by
      have := le_roundToPowerOfTwo (n := n) (by have := Nat.two_pow_pos m; omega)
      rw [roundToPowerOfTwo_eq] at this
      omega
    exact (Nat.pow_le_pow_iff_right (by decide)).mp hle
  refine ⟨bitLength (n - 1) - m, ?_⟩
  rw [roundToPowerOfTwo_eq, ← pow_add]
  congr 1
  omega

/-! ## The invariant -/

/-- The blocks of a pool, and the one that is held back. -/
def Has (p : TensorMemoryPool) (held : Option MemoryBlock) : Kind → MemoryBlock → Prop
  | .free, b => ∃ d, p.freeLists b.size = some d ∧ b ∈ d
  | .used, b => b ∈ p.allocatedBlocks
  | .held, b => held = some b

/-- The dictionaries hold a buddy partition of the pinned memory, with so few sizes that a merge is never cut short. -/
structure Partitioned (p : TensorMemoryPool) (height : Nat) (held : Option MemoryBlock) : Prop where
  height_le : height ≤ maxMergeDepth
  top : p.maxBlockSize = p.minBlockSize * 2 ^ height
  powerOfTwo : ∃ m, p.minBlockSize = 2 ^ m
  keys : ∀ j ≤ height, ∃ d, p.freeLists (p.minBlockSize * 2 ^ j) = some d
  lists : ∀ size d, p.freeLists size = some d → d.Nodup ∧ ∀ b ∈ d, b.size = size
  allocated : p.allocatedBlocks.Nodup
  blocks : BuddyPartition p.baseAddress p.minBlockSize height (p.Has held)

section
variable {p : TensorMemoryPool} {height : Nat} {held : Option MemoryBlock}

theorem free_of_mem (h : Partitioned p height held) {size : Nat} {d : List MemoryBlock}
    (hd : p.freeLists size = some d) {b : MemoryBlock} (hb : b ∈ d) : p.Has held .free b := by
  have hsize := (h.lists size d hd).2 b hb
  exact ⟨d, by rw [hsize, hd], hb⟩

theorem addr_inj (h : Partitioned p height held) {k k' : Kind} {b c : MemoryBlock} (hb : p.Has held k b)
    (hc : p.Has held k' c) (heq : b.addr = c.addr) : k = k' ∧ b = c := by
  rcases h.blocks.apart hb hc with hsame | hap
  · exact hsame
  · have := h.blocks.size_pos hb
    have := h.blocks.size_pos hc
    unfold Apart at hap
    omega

theorem has_free_update {size : Nat} {d : List MemoryBlock} {b : MemoryBlock} :
    TensorMemoryPool.Has { p with freeLists := Function.update p.freeLists size (some d) } held .free b ↔
      (b.size = size ∧ b ∈ d) ∨ (b.size ≠ size ∧ p.Has held .free b) := by
  unfold Has
  by_cases hs : b.size = size
  · simp [hs]
  · simp [hs]

theorem held_size (h : Partitioned p height held) {b : MemoryBlock} (hb : held = some b) :
    ∃ j ≤ height, b.size = p.minBlockSize * 2 ^ j := by
  have hhas : p.Has held .held b := hb
  obtain ⟨j, hj⟩ := h.blocks.size hhas
  refine ⟨j, ?_, hj⟩
  have hin := h.blocks.inside hhas
  by_contra hlt
  have := Nat.mul_lt_mul_of_pos_left (Nat.pow_lt_pow_right (show 1 < 2 by decide) (show height < j by omega)) h.blocks.unit_pos
  omega

/-! ## One dictionary update at a time -/

theorem mem_of_free (h : Partitioned p height held) {size : Nat} {d : List MemoryBlock} (hd : p.freeLists size = some d)
    {b : MemoryBlock} : b ∈ d ↔ p.Has held .free b ∧ b.size = size := by
  constructor
  · exact fun hb => ⟨free_of_mem h hd hb, (h.lists size d hd).2 b hb⟩
  · rintro ⟨⟨e, he, hm⟩, rfl⟩
    rw [hd] at he
    cases he
    exact hm

theorem partitioned_update (h : Partitioned p height held) {size : Nat} {d : List MemoryBlock} {held' : Option MemoryBlock}
    (hd : d.Nodup) (hsizes : ∀ b ∈ d, b.size = size)
    (hblocks : BuddyPartition p.baseAddress p.minBlockSize height
      (TensorMemoryPool.Has { p with freeLists := Function.update p.freeLists size (some d) } held')) :
    Partitioned { p with freeLists := Function.update p.freeLists size (some d) } height held' := by
  refine ⟨h.height_le, h.top, h.powerOfTwo, fun j hj => ?_, fun size' e he => ?_, h.allocated, hblocks⟩
  · dsimp only
    by_cases hs : p.minBlockSize * 2 ^ j = size
    · rw [hs, Function.update_self]
      exact ⟨_, rfl⟩
    · rw [Function.update_of_ne hs]
      exact h.keys j hj
  · dsimp only at he
    by_cases hs : size' = size
    · subst hs
      rw [Function.update_self] at he
      cases he
      exact ⟨hd, hsizes⟩
    · rw [Function.update_of_ne hs] at he
      exact h.lists size' e he

theorem partitioned_pop (h : Partitioned p height none) {size : Nat} {d : List MemoryBlock} {b : MemoryBlock}
    (hd : p.freeLists size = some d) (hb : d.getLast? = some b) :
    Partitioned { p with freeLists := Function.update p.freeLists size (some d.dropLast) } height (some b) := by
  obtain ⟨d', rfl⟩ := List.getLast?_eq_some_iff.mp hb
  rw [List.dropLast_concat]
  obtain ⟨hnodup, hsizes⟩ := h.lists size _ hd
  have hmem : ∀ x, x ∈ d' ↔ p.Has none .free x ∧ x.size = size ∧ x ≠ b := by
    intro x
    have hx := mem_of_free h hd (b := x)
    have hnot : b ∉ d' := (List.nodup_cons.mp ((List.perm_append_singleton b d').nodup_iff.mp hnodup)).1
    rw [List.mem_append, List.mem_singleton] at hx
    constructor
    · intro hm
      obtain ⟨hf, hs⟩ := hx.mp (.inl hm)
      exact ⟨hf, hs, fun heq => hnot (heq ▸ hm)⟩
    · rintro ⟨hf, hs, hne⟩
      exact (hx.mpr ⟨hf, hs⟩).resolve_right hne
  have hfree : p.Has none .free b := free_of_mem h hd (by simp)
  have hbs : b.size = size := hsizes b (by simp)
  refine partitioned_update h (List.Nodup.sublist (List.sublist_append_left d' [b]) hnodup)
    (fun x hx => ((hmem x).mp hx).2.1) ?_
  refine h.blocks.move .free .held hfree nofun fun κ x => ?_
  cases κ with
  | free =>
    rw [has_free_update, hmem]
    simp only [true_and, reduceCtorEq, false_and, or_false]
    constructor
    · rintro (⟨-, hf, -, hne⟩ | ⟨hs, hf⟩)
      · exact ⟨hf, hne⟩
      · exact ⟨hf, fun heq => hs (heq ▸ hbs)⟩
    · rintro ⟨hf, hne⟩
      by_cases hs : x.size = size
      · exact .inl ⟨hs, hf, hs, hne⟩
      · exact .inr ⟨hs, hf⟩
  | used => simp [Has]
  | held => simp [Has, eq_comm]

section
variable {b : MemoryBlock} (h : Partitioned p height (some b))
include h

/-- No other block has the address of the one that is held back, or of a part of it. -/
theorem not_free_within {c : MemoryBlock} (hlo : b.addr ≤ c.addr) (hhi : c.addr < b.addr + b.size) {k : Kind}
    (hk : k ≠ .held) : ¬ p.Has (some b) k c := by
  intro hc
  rcases h.blocks.apart (k := .held) (b := b) rfl hc with ⟨rfl, -⟩ | hap
  · exact hk rfl
  · have := h.blocks.size_pos hc
    unfold Apart at hap
    omega

theorem partitioned_split {s : Nat} {d : List MemoryBlock} (hd : p.freeLists s = some d) (hs : b.size = 2 * s)
    (hsize : ∃ j, s = p.minBlockSize * 2 ^ j) :
    Partitioned { p with freeLists := Function.update p.freeLists s (some (dictSet d ⟨s, b.addr + s⟩)) } height
      (some ⟨s, b.addr⟩) := by
  have hpos : 0 < b.size := h.blocks.size_pos (k := .held) rfl
  obtain ⟨hnodup, hsizes⟩ := h.lists s d hd
  have hnew : ∀ c ∈ d, c.addr ≠ b.addr + s := by
    intro c hc heq
    exact not_free_within h (by omega) (by omega) (k := .free) nofun (free_of_mem h hd hc)
  rw [dictSet_new hnew]
  refine partitioned_update h ?_ ?_ ?_
  · refine (List.perm_append_singleton _ d).nodup_iff.mpr (List.nodup_cons.mpr ⟨fun hm => hnew _ hm rfl, hnodup⟩)
  · intro c hc
    rcases List.mem_append.mp hc with hc | hc
    · exact hsizes c hc
    · rw [List.mem_singleton.mp hc]
  · refine h.blocks.split (b := b) (s := s) rfl hs hsize fun κ x => ?_
    cases κ with
    | free =>
      rw [has_free_update, List.mem_append, List.mem_singleton, mem_of_free h hd]
      simp only [reduceCtorEq, false_and, not_false_eq_true, and_true, false_or, true_and]
      constructor
      · rintro (⟨-, ⟨hf, -⟩ | hx⟩ | ⟨-, hf⟩)
        · exact .inl hf
        · exact .inr hx
        · exact .inl hf
      · rintro (hf | hx)
        · by_cases hxs : x.size = s
          · exact .inl ⟨hxs, .inl ⟨hf, hxs⟩⟩
          · exact .inr ⟨hxs, hf⟩
        · exact .inl ⟨by rw [hx], .inr hx⟩
    | used => simp [Has]
    | held => simp [Has, eq_comm]

theorem partitioned_use : Partitioned { p with allocatedBlocks := dictSet p.allocatedBlocks b } height none := by
  have hpos : 0 < b.size := h.blocks.size_pos (k := .held) rfl
  have hnew : ∀ c ∈ p.allocatedBlocks, c.addr ≠ b.addr := by
    intro c hc heq
    exact not_free_within h (by omega) (by omega) (k := .used) nofun hc
  rw [dictSet_new hnew]
  refine ⟨h.height_le, h.top, h.powerOfTwo, h.keys, h.lists, ?_, ?_⟩
  · exact (List.perm_append_singleton b _).nodup_iff.mpr
      (List.nodup_cons.mpr ⟨fun hm => hnew b hm rfl, h.allocated⟩)
  · refine h.blocks.move .held .used rfl nofun fun κ x => ?_
    cases κ with
    | free => simp [Has]
    | used => simp [Has]
    | held => simp [Has, eq_comm]

theorem partitioned_put {d : List MemoryBlock} (hd : p.freeLists b.size = some d)
    (hbuddy : ¬ p.Has (some b) .free (b.buddy p.baseAddress)) :
    Partitioned { p with freeLists := Function.update p.freeLists b.size (some (dictSet d b)) } height none := by
  have hpos : 0 < b.size := h.blocks.size_pos (k := .held) rfl
  obtain ⟨hnodup, hsizes⟩ := h.lists _ d hd
  have hnew : ∀ c ∈ d, c.addr ≠ b.addr := by
    intro c hc heq
    exact not_free_within h (by omega) (by omega) (k := .free) nofun (free_of_mem h hd hc)
  rw [dictSet_new hnew]
  refine partitioned_update h ?_ ?_ ?_
  · exact (List.perm_append_singleton b d).nodup_iff.mpr (List.nodup_cons.mpr ⟨fun hm => hnew b hm rfl, hnodup⟩)
  · intro c hc
    rcases List.mem_append.mp hc with hc | hc
    · exact hsizes c hc
    · rw [List.mem_singleton.mp hc]
  · refine h.blocks.move .held .free rfl (fun _ => hbuddy) fun κ x => ?_
    cases κ with
    | free =>
      rw [has_free_update, List.mem_append, List.mem_singleton, mem_of_free h hd]
      simp only [reduceCtorEq, false_and, not_false_eq_true, and_true, true_and]
      constructor
      · rintro (⟨-, ⟨hf, -⟩ | hx⟩ | ⟨-, hf⟩)
        · exact .inl hf
        · exact .inr hx
        · exact .inl hf
      · rintro (hf | hx)
        · by_cases hxs : x.size = b.size
          · exact .inl ⟨hxs, .inl ⟨hf, hxs⟩⟩
          · exact .inr ⟨hxs, hf⟩
        · exact .inl ⟨by rw [hx], .inr hx⟩
    | used => simp [Has]
    | held => simp [Has, eq_comm]

theorem partitioned_merge {d : List MemoryBlock} (hd : p.freeLists b.size = some d)
    (hbuddy : p.Has (some b) .free (b.buddy p.baseAddress)) :
    Partitioned
      { p with freeLists := Function.update p.freeLists b.size (some (dictDel d (b.buddy p.baseAddress).addr)) } height
      (some (b.parent p.baseAddress)) := by
  obtain ⟨hnodup, hsizes⟩ := h.lists _ d hd
  refine partitioned_update h (List.Nodup.sublist List.filter_sublist hnodup)
    (fun c hc => hsizes c (mem_dictDel.mp hc).1) ?_
  refine h.blocks.merge (b := b) rfl hbuddy fun κ x => ?_
  cases κ with
  | free =>
    rw [has_free_update, mem_dictDel, mem_of_free h hd]
    simp only [reduceCtorEq, false_and, false_or, true_and, or_false]
    constructor
    · rintro (⟨-, ⟨hf, -⟩, hne⟩ | ⟨hs, hf⟩)
      · exact ⟨hf, fun heq => hne (by rw [heq])⟩
      · exact ⟨hf, fun heq => hs (by rw [heq]; rfl)⟩
    · rintro ⟨hf, hne⟩
      by_cases hs : x.size = b.size
      · refine .inl ⟨hs, ⟨hf, hs⟩, fun heq => hne ?_⟩
        exact (addr_inj h hf hbuddy heq).2
      · exact .inr ⟨hs, hf⟩
  | used => simp [Has]
  | held => simp [Has, eq_comm]

end

theorem partitioned_unuse (h : Partitioned p height none) {b : MemoryBlock} (hb : b ∈ p.allocatedBlocks) :
    Partitioned { p with allocatedBlocks := dictDel p.allocatedBlocks b.addr } height (some b) := by
  refine ⟨h.height_le, h.top, h.powerOfTwo, h.keys, h.lists, List.Nodup.sublist List.filter_sublist h.allocated, ?_⟩
  refine h.blocks.move .used .held hb nofun fun κ x => ?_
  cases κ with
  | free => simp [Has]
  | used =>
    simp only [Has, mem_dictDel, true_and, reduceCtorEq, false_and, or_false]
    constructor
    · exact fun ⟨hx, hne⟩ => ⟨hx, fun heq => hne (by rw [heq])⟩
    · exact fun ⟨hx, hne⟩ => ⟨hx, fun heq => hne (@addr_inj p height none h .used .used x b hx hb heq).2⟩
  | held => simp [Has, eq_comm]

/-! ## The loops -/

/-- What no call changes. -/
structure SamePool (p p' : TensorMemoryPool) : Prop where
  maxBlockSize : p'.maxBlockSize = p.maxBlockSize
  minBlockSize : p'.minBlockSize = p.minBlockSize
  baseAddress : p'.baseAddress = p.baseAddress

theorem SamePool.refl (p : TensorMemoryPool) : SamePool p p := ⟨rfl, rfl, rfl⟩

theorem splitBlock_spec {required r : Nat} : ∀ {fuel : Nat} {p : TensorMemoryPool} {b : MemoryBlock},
    Partitioned p height (some b) → required = p.minBlockSize * 2 ^ r → required ≤ b.size → b.size ≤ fuel →
    ∃ p', splitBlock required fuel p b = (p', .ok ⟨required, b.addr⟩) ∧ Partitioned p' height (some ⟨required, b.addr⟩) ∧
      SamePool p p' ∧ p'.allocatedBlocks = p.allocatedBlocks
  | 0, p, b, h, _, _, hfuel => by
    have : 0 < b.size := h.blocks.size_pos (k := .held) rfl
    omega
  | fuel + 1, p, b, h, hreq, hle, hfuel => by
    have hpos : 0 < b.size := h.blocks.size_pos (k := .held) rfl
    obtain ⟨j, hj, hsize⟩ := held_size h rfl
    unfold splitBlock
    by_cases hgt : b.size > required
    · have hrj : r < j := @BuddyPartition.size_lt p.minBlockSize _ _ (by omega)
      obtain ⟨i, rfl⟩ : ∃ i, j = i + 1 := ⟨j - 1, by omega⟩
      have hhalf : b.size = 2 * (p.minBlockSize * 2 ^ i) := by
        rw [hsize, pow_succ]
        ring
      have hdiv : b.size / 2 = p.minBlockSize * 2 ^ i := by omega
      have hmin : p.minBlockSize ≤ p.minBlockSize * 2 ^ i := Nat.le_mul_of_pos_right _ (Nat.two_pow_pos i)
      obtain ⟨d, hd⟩ := h.keys i (by omega)
      rw [if_pos ⟨hgt, by omega⟩]
      dsimp only
      rw [hdiv, hd]
      have hreq' : required ≤ p.minBlockSize * 2 ^ i := by
        rw [hreq]
        exact Nat.mul_le_mul_left _ (Nat.pow_le_pow_right (by decide) (by omega))
      have hfuel' : p.minBlockSize * 2 ^ i ≤ fuel := by omega
      obtain ⟨p', heq, hp', hsame, hused⟩ := splitBlock_spec (partitioned_split h hd hhalf ⟨i, rfl⟩) hreq hreq' hfuel'
      exact ⟨p', heq, hp', ⟨hsame.1, hsame.2, hsame.3⟩, hused⟩
    · have hsz : b.size = required := by omega
      rw [if_neg (by omega)]
      rcases b with ⟨bs, ba⟩
      dsimp only at hsz
      subst hsz
      exact ⟨p, rfl, h, .refl p, rfl⟩

theorem allocateFrom_spec {required r : Nat} : ∀ {fuel : Nat} {p : TensorMemoryPool} {current c : Nat},
    Partitioned p height none → required = p.minBlockSize * 2 ^ r → current = p.minBlockSize * 2 ^ c → r ≤ c →
    p.maxBlockSize < fuel + current → (∀ b, p.Has none .free b → required ≤ b.size → current ≤ b.size) →
    (∃ p' b, allocateFrom required fuel p current = (p', .ok b.addr) ∧ Partitioned p' height none ∧ SamePool p p' ∧
      p'.allocatedBlocks = p.allocatedBlocks ++ [b] ∧ b.size = required ∧
      ∃ f, p.Has none .free f ∧ required ≤ f.size) ∨
    (allocateFrom required fuel p current = (p, .error .insufficientMemory) ∧
      ∀ b, p.Has none .free b → b.size < required)
  | 0, p, current, c, h, _, _, _, hfuel, hnone => by
    refine .inr ⟨rfl, fun b hb => ?_⟩
    by_contra hge
    have := hnone b hb (by omega)
    have := h.blocks.inside hb
    have := h.top
    omega
  | fuel + 1, p, current, c, h, hreq, hcur, hrc, hfuel, hnone => by
    have hpos : 0 < current := by
      rw [hcur]
      exact Nat.mul_pos h.blocks.unit_pos (Nat.two_pow_pos c)
    unfold allocateFrom
    by_cases hle : current ≤ p.maxBlockSize
    · have hch : c ≤ height := by
        by_contra hlt
        have := Nat.mul_lt_mul_of_pos_left (Nat.pow_lt_pow_right (show 1 < 2 by decide) (show height < c by omega))
          h.blocks.unit_pos
        have := h.top
        omega
      obtain ⟨d, hd⟩ := h.keys c hch
      rw [← hcur] at hd
      rw [if_pos hle, hd]
      dsimp only
      have hreqle : required ≤ current := by
        rw [hreq, hcur]
        exact Nat.mul_le_mul_left _ (Nat.pow_le_pow_right (by decide) hrc)
      cases hlast : d.getLast? with
      | none =>
        -- nothing of this size: the next one
        have hempty : d = [] := List.getLast?_eq_none_iff.mp hlast
        refine allocateFrom_spec h hreq (c := c + 1) ?_ (by omega) (by omega) fun b hb hge => ?_
        · rw [hcur, pow_succ]
          ring
        · have hcb := hnone b hb hge
          obtain ⟨j, hj⟩ := h.blocks.size hb
          have hne : b.size ≠ current := by
            intro heq
            have := (mem_of_free h hd (b := b)).mpr ⟨hb, heq⟩
            rw [hempty] at this
            cases this
          have hcj : c < j := @BuddyPartition.size_lt p.minBlockSize _ _ (by omega)
          rw [hj, hcur, Nat.mul_assoc, ← pow_succ]
          exact Nat.mul_le_mul_left _ (Nat.pow_le_pow_right (by decide) hcj)
      | some b =>
        have hb : b ∈ d := List.mem_of_getLast? hlast
        have hbs := (h.lists current d hd).2 b hb
        obtain ⟨p', heq, hp', hsame, hused⟩ := splitBlock_spec (partitioned_pop h hd hlast) hreq
          (by omega) (Nat.le_refl b.size)
        dsimp only
        rw [heq]
        dsimp only
        have hnew : ∀ c ∈ p'.allocatedBlocks, c.addr ≠ b.addr := by
          intro c hc heq
          rw [hused] at hc
          have := (addr_inj h (free_of_mem h hd hb) (show p.Has none .used c from hc) heq.symm).1
          cases this
        refine .inl ⟨_, ⟨required, b.addr⟩, rfl, partitioned_use hp', ⟨hsame.1, hsame.2, hsame.3⟩, ?_, rfl, b,
          free_of_mem h hd hb, by omega⟩
        dsimp only
        rw [dictSet_new (b := ⟨required, b.addr⟩) hnew, hused]
    · rw [if_neg hle]
      refine .inr ⟨rfl, fun b hb => ?_⟩
      by_contra hge
      have := hnone b hb (by omega)
      have := h.blocks.inside hb
      have := h.top
      omega

theorem putFree_spec {b : MemoryBlock} (h : Partitioned p height (some b))
    (hbuddy : ¬ p.Has (some b) .free (b.buddy p.baseAddress)) :
    ∃ p', p.putFree b = (p', .ok ()) ∧ Partitioned p' height none ∧ SamePool p p' ∧
      p'.allocatedBlocks = p.allocatedBlocks := by
  obtain ⟨j, hj, hsize⟩ := held_size h rfl
  obtain ⟨d, hd⟩ := h.keys j hj
  rw [← hsize] at hd
  unfold putFree
  rw [hd]
  exact ⟨_, rfl, partitioned_put h hd hbuddy, ⟨rfl, rfl, rfl⟩, rfl⟩

theorem mergeBuddies_spec : ∀ {depth : Nat} {p : TensorMemoryPool} {b : MemoryBlock} {j : Nat},
    Partitioned p height (some b) → b.size = p.minBlockSize * 2 ^ j → height ≤ j + depth →
    ∃ p', mergeBuddies depth p b = (p', .ok ()) ∧ Partitioned p' height none ∧ SamePool p p' ∧
      p'.allocatedBlocks = p.allocatedBlocks
  | 0, p, b, j, h, hsize, hdepth => by
    -- the block is the whole pool
    have hheld : p.Has (some b) .held b := rfl
    obtain ⟨i, hi, hsize'⟩ := held_size h rfl
    have hpow := Nat.pow_le_pow_right (show 0 < 2 by decide) (show height ≤ j by omega)
    have hle := Nat.mul_le_mul_left p.minBlockSize hpow
    have hin := h.blocks.inside hheld
    refine putFree_spec h fun hf => ?_
    have := (h.blocks.eq_of_top hheld (by omega) hf).2.1
    cases this
  | depth + 1, p, b, j, h, hsize, hdepth => by
    have hheld : p.Has (some b) .held b := rfl
    obtain ⟨i, hi, hsize'⟩ := held_size h rfl
    obtain ⟨d, hd⟩ := h.keys i hi
    rw [← hsize'] at hd
    have haddr : b.addr + (if (b.addr - p.baseAddress) % (2 * b.size) = 0 then (b.size : Int) else -b.size) =
        (b.buddy p.baseAddress).addr := by
      unfold Block.buddy
      dsimp only
      split
      · rfl
      · rw [Int.sub_eq_add_neg]
    unfold mergeBuddies
    dsimp only
    rw [haddr, hd]
    dsimp only
    cases hget : dictGet d (b.buddy p.baseAddress).addr with
    | none =>
      refine putFree_spec h fun hf => ?_
      exact dictGet_none hget ((mem_of_free h hd).mpr ⟨hf, rfl⟩) rfl
    | some buddy =>
      obtain ⟨hm, ha⟩ := dictGet_some hget
      obtain ⟨hf, hs⟩ := (mem_of_free h hd).mp hm
      have hbuddy : buddy = b.buddy p.baseAddress := by
        rcases buddy with ⟨bs, ba⟩
        dsimp only at ha hs
        subst ha hs
        rfl
      subst hbuddy
      dsimp only
      have hsb : (b.buddy p.baseAddress).size = b.size := rfl
      rw [hsb, hd, Option.map_some]
      have hmerge := partitioned_merge h hd hf
      have hparent : b.parent p.baseAddress = ⟨b.size * 2, min b.addr (b.buddy p.baseAddress).addr⟩ := by
        unfold Block.parent
        rw [Nat.mul_comm]
      rw [hparent] at hmerge
      have hdepth' : height ≤ j + 1 + depth := by omega
      obtain ⟨p', heq, hp', hsame, hused⟩ := mergeBuddies_spec hmerge (by dsimp only; rw [hsize, pow_succ]; ring) hdepth'
      exact ⟨p', heq, hp', ⟨hsame.1, hsame.2, hsame.3⟩, hused⟩

/-! ## The calls -/

theorem initializeFreeLists_eq {m : Nat} (hm : 0 < m) : ∀ {h fuel : Nat}, h < fuel → ∀ size,
    (initializeFreeLists m fuel (m * 2 ^ h) size = some [] ∧ ∃ j ≤ h, size = m * 2 ^ j) ∨
      (initializeFreeLists m fuel (m * 2 ^ h) size = none ∧ ∀ j ≤ h, size ≠ m * 2 ^ j)
  | 0, fuel + 1, _, size => by
    have hrest : initializeFreeLists m fuel (m / 2) = fun _ => none := by
      cases fuel with
      | zero => rfl
      | succ fuel =>
        unfold initializeFreeLists
        rw [if_neg (by omega)]
    unfold initializeFreeLists
    rw [pow_zero, Nat.mul_one, if_pos (Nat.le_refl m), hrest]
    by_cases hs : size = m
    · subst hs
      exact .inl ⟨Function.update_self .., 0, Nat.le_refl 0, by simp⟩
    · refine .inr ⟨Function.update_of_ne hs .., fun j hj => ?_⟩
      obtain rfl : j = 0 := by omega
      simpa using hs
  | h + 1, fuel + 1, hlt, size => by
    have hdouble : m * 2 ^ (h + 1) = 2 * (m * 2 ^ h) := by
      rw [pow_succ]
      ring
    have hhalf : m * 2 ^ (h + 1) / 2 = m * 2 ^ h := by omega
    have hge : m ≤ m * 2 ^ (h + 1) := Nat.le_mul_of_pos_right _ (Nat.two_pow_pos _)
    unfold initializeFreeLists
    rw [if_pos hge, hhalf]
    by_cases hs : size = m * 2 ^ (h + 1)
    · subst hs
      exact .inl ⟨Function.update_self .., h + 1, Nat.le_refl _, rfl⟩
    · rw [Function.update_of_ne hs]
      have hfuel : h < fuel := by omega
      rcases initializeFreeLists_eq hm hfuel size with ⟨heq, j, hj, hsize⟩ | ⟨heq, hnone⟩
      · exact .inl ⟨heq, j, by omega, hsize⟩
      · refine .inr ⟨heq, fun j hj => ?_⟩
        rcases Nat.lt_or_eq_of_le hj with hj | rfl
        · exact hnone j (by omega)
        · exact hs

theorem init_spec {maxBlockSize minBlockSize base : Int} (h : init maxBlockSize minBlockSize base = .ok p)
    (hratio : p.maxBlockSize ≤ p.minBlockSize * 2 ^ 30) : ∃ height, Partitioned p height none := by
  unfold init at h
  split at h
  · cases h
  split at h
  · cases h
  rename_i hpos hle
  dsimp only at h
  generalize htop : roundToPowerOfTwo maxBlockSize.toNat = top at h
  generalize hbottom : roundToPowerOfTwo minBlockSize.toNat = bottom at h
  cases h
  dsimp only at hratio
  obtain ⟨m, rfl⟩ : ∃ m, bottom = 2 ^ m := ⟨_, by rw [← hbottom, roundToPowerOfTwo_eq]⟩
  -- rounding keeps the order
  obtain ⟨height, rfl⟩ : ∃ height, top = 2 ^ m * 2 ^ height := by
    rw [roundToPowerOfTwo_eq] at htop hbottom
    have hmono : bitLength (minBlockSize.toNat - 1) ≤ bitLength (maxBlockSize.toNat - 1) := by
      rw [bitLength_le]
      have := bitLength_le.mp (Nat.le_refl (bitLength (maxBlockSize.toNat - 1)))
      omega
    have hm : bitLength (minBlockSize.toNat - 1) = m := Nat.pow_right_injective (Nat.le_refl 2) hbottom
    refine ⟨bitLength (maxBlockSize.toNat - 1) - m, ?_⟩
    rw [← htop, ← pow_add]
    congr 1
    omega
  have hunit : 0 < 2 ^ m := Nat.two_pow_pos m
  have hheight : height ≤ maxMergeDepth :=
    (Nat.pow_le_pow_iff_right (show 1 < 2 by decide)).mp (Nat.le_of_mul_le_mul_left hratio hunit)
  have hfuel : height < 2 ^ m * 2 ^ height :=
    Nat.lt_of_lt_of_le Nat.lt_two_pow_self (Nat.le_mul_of_pos_left _ hunit)
  have hlists := initializeFreeLists_eq hunit hfuel
  have htoplist : initializeFreeLists (2 ^ m) (2 ^ m * 2 ^ height) (2 ^ m * 2 ^ height) (2 ^ m * 2 ^ height) = some [] := by
    rcases hlists (2 ^ m * 2 ^ height) with ⟨heq, -⟩ | ⟨-, hno⟩
    · exact heq
    · exact absurd rfl (hno height (Nat.le_refl _))
  rw [htoplist, Option.map_some, dictSet_new (by simp), List.nil_append]
  refine ⟨height, hheight, rfl, ⟨m, rfl⟩, fun j hj => ?_, fun size d hd => ?_, List.nodup_nil,
    .single hunit fun k b => ?_⟩
  · dsimp only
    rw [Function.update_apply]
    split
    · exact ⟨_, rfl⟩
    · rcases hlists (2 ^ m * 2 ^ j) with ⟨heq, -⟩ | ⟨-, hno⟩
      · exact ⟨_, heq⟩
      · exact absurd rfl (hno j hj)
  · dsimp only at hd
    rw [Function.update_apply] at hd
    split at hd
    · rename_i hs
      cases hd
      simp [hs]
    · rcases hlists size with ⟨heq, -⟩ | ⟨heq, -⟩
      · rw [heq] at hd
        cases hd
        simp
      · rw [heq] at hd
        cases hd
  · cases k with
    | free =>
      simp only [Has, true_and, Function.update_apply]
      constructor
      · rintro ⟨d, hd, hb⟩
        split at hd
        · cases hd
          exact List.mem_singleton.mp hb
        · rcases hlists b.size with ⟨heq, -⟩ | ⟨heq, -⟩
          · rw [heq] at hd
            cases hd
            cases hb
          · rw [heq] at hd
            cases hd
      · rintro rfl
        exact ⟨_, if_pos rfl, List.mem_singleton_self _⟩
    | used => simp [Has]
    | held => simp [Has]

theorem allocate_spec (h : Partitioned p height none) (size : Int) :
    (∃ p' b, p.allocate size = (p', .ok b.addr) ∧ Partitioned p' height none ∧ SamePool p p' ∧
      p'.allocatedBlocks = p.allocatedBlocks ++ [b] ∧ 0 < size ∧ size ≤ b.size ∧
      b.size = roundToPowerOfTwo (max size.toNat p.minBlockSize) ∧ ∃ f, p.Has none .free f ∧ b.size ≤ f.size) ∨
    (p.allocate size = (p, .error .insufficientMemory) ∧ 0 < size ∧
      roundToPowerOfTwo (max size.toNat p.minBlockSize) ≤ p.maxBlockSize ∧
      ∀ b, p.Has none .free b → b.size < roundToPowerOfTwo (max size.toNat p.minBlockSize)) ∨
    (p.allocate size = (p, .error .exceedsMaximum) ∧ 0 < size ∧
      p.maxBlockSize < roundToPowerOfTwo (max size.toNat p.minBlockSize)) ∨
    (p.allocate size = (p, .error .allocationSize) ∧ size ≤ 0) := by
  unfold allocate
  by_cases hsize : size ≤ 0
  · rw [if_pos hsize]
    exact .inr (.inr (.inr ⟨rfl, hsize⟩))
  rw [if_neg hsize]
  dsimp only
  by_cases hmax : roundToPowerOfTwo (max size.toNat p.minBlockSize) > p.maxBlockSize
  · rw [if_pos hmax]
    exact .inr (.inr (.inl ⟨rfl, by omega, hmax⟩))
  rw [if_neg hmax]
  obtain ⟨m, hm⟩ := h.powerOfTwo
  obtain ⟨r, hr⟩ := roundToPowerOfTwo_of_le (m := m) (n := max size.toNat p.minBlockSize) (by omega)
  have hge := le_roundToPowerOfTwo (n := max size.toNat p.minBlockSize) (by omega)
  rw [← hm] at hr
  have hfuel : p.maxBlockSize < p.maxBlockSize + 1 + roundToPowerOfTwo (max size.toNat p.minBlockSize) := by omega
  rcases allocateFrom_spec h hr hr (Nat.le_refl r) hfuel (fun b _ hle => hle) with
    ⟨p', b, heq, hp', hsame, hused, hbs, f, hf, hfs⟩ | ⟨heq, hnone⟩
  · exact .inl ⟨p', b, heq, hp', hsame, hused, by omega, by omega, hbs, f, hf, by omega⟩
  · exact .inr (.inl ⟨heq, by omega, by omega, hnone⟩)

theorem allocate_insufficient_iff (h : Partitioned p height none) (size : Int) :
    (p.allocate size).2 = .error .insufficientMemory ↔
      0 < size ∧ roundToPowerOfTwo (max size.toNat p.minBlockSize) ≤ p.maxBlockSize ∧
        ∀ b, p.Has none .free b → b.size < roundToPowerOfTwo (max size.toNat p.minBlockSize) := by
  rcases allocate_spec h size with ⟨p', b, heq, -, -, -, -, -, hbs, f, hf, hle⟩ | ⟨heq, hpos, hmax, hnone⟩ |
    ⟨heq, -, hmax⟩ | ⟨heq, hneg⟩
  · rw [heq]
    refine ⟨nofun, fun ⟨_, _, hnone⟩ => ?_⟩
    have := hnone f hf
    omega
  · rw [heq]
    exact ⟨fun _ => ⟨hpos, hmax, hnone⟩, fun _ => rfl⟩
  · rw [heq]
    exact ⟨nofun, fun ⟨_, hle, _⟩ => by omega⟩
  · rw [heq]
    exact ⟨nofun, fun ⟨hpos, _⟩ => by omega⟩

theorem allocate_exceeds_iff (h : Partitioned p height none) (size : Int) :
    (p.allocate size).2 = .error .exceedsMaximum ↔
      0 < size ∧ p.maxBlockSize < roundToPowerOfTwo (max size.toNat p.minBlockSize) := by
  constructor
  · intro herr
    rcases allocate_spec h size with ⟨p', b, heq, -⟩ | ⟨heq, -⟩ | ⟨heq, hpos, hmax⟩ | ⟨heq, -⟩
    · rw [heq] at herr
      cases herr
    · rw [heq] at herr
      cases herr
    · exact ⟨hpos, hmax⟩
    · rw [heq] at herr
      cases herr
  · rintro ⟨hpos, hmax⟩
    unfold allocate
    rw [if_neg (by omega)]
    simp only
    rw [if_pos hmax]

theorem allocate_size_iff (h : Partitioned p height none) (size : Int) :
    (p.allocate size).2 = .error .allocationSize ↔ size ≤ 0 := by
  constructor
  · intro herr
    rcases allocate_spec h size with ⟨p', b, heq, -⟩ | ⟨heq, -⟩ | ⟨heq, -⟩ | ⟨-, hneg⟩
    · rw [heq] at herr
      cases herr
    · rw [heq] at herr
      cases herr
    · rw [heq] at herr
      cases herr
    · exact hneg
  · intro hneg
    unfold allocate
    rw [if_pos hneg]

theorem free_spec (h : Partitioned p height none) (addr : Int) :
    (∃ p' b, b ∈ p.allocatedBlocks ∧ b.addr = addr ∧ p.free addr = (p', .ok ()) ∧ Partitioned p' height none ∧
      SamePool p p' ∧ p'.allocatedBlocks = dictDel p.allocatedBlocks addr) ∨
    (p.free addr = (p, .error .invalidAddress) ∧ ∀ b ∈ p.allocatedBlocks, b.addr ≠ addr) := by
  unfold free
  cases hget : dictGet p.allocatedBlocks addr with
  | none => exact .inr ⟨rfl, fun b hb => dictGet_none hget hb⟩
  | some b =>
    obtain ⟨hb, rfl⟩ := dictGet_some hget
    have hheld := partitioned_unuse h hb
    obtain ⟨j, hj, hsize⟩ := held_size hheld rfl
    have hdepth : height ≤ j + maxMergeDepth := by
      have := h.height_le
      omega
    obtain ⟨p', heq, hp', hsame, hused⟩ := mergeBuddies_spec hheld hsize hdepth
    exact .inl ⟨p', b, hb, rfl, heq, hp', ⟨hsame.1, hsame.2, hsame.3⟩, hused⟩

theorem call_partitioned (h : Partitioned p height none) (c : Call) :
    Partitioned (p.call c) height none ∧ SamePool p (p.call c) := by
  cases c with
  | allocate size =>
    dsimp only [call]
    rcases allocate_spec h size with ⟨p', b, heq, hp', hsame, -⟩ | ⟨heq, -⟩ | ⟨heq, -⟩ | ⟨heq, -⟩
    · rw [heq]
      exact ⟨hp', hsame⟩
    · rw [heq]
      exact ⟨h, .refl p⟩
    · rw [heq]
      exact ⟨h, .refl p⟩
    · rw [heq]
      exact ⟨h, .refl p⟩
  | free addr =>
    dsimp only [call]
    rcases free_spec h addr with ⟨p', b, -, -, heq, hp', hsame, -⟩ | ⟨heq, -⟩
    · rw [heq]
      exact ⟨hp', hsame⟩
    · rw [heq]
      exact ⟨h, .refl p⟩

theorem run_partitioned : ∀ {calls : List Call} {p : TensorMemoryPool}, Partitioned p height none →
    Partitioned (p.run calls) height none
  | [], _, h => h
  | c :: calls, p, h => by
    show Partitioned ((p.call c).run calls) height none
    exact run_partitioned (call_partitioned h c).1

theorem run_free_all : ∀ {blocks : List MemoryBlock} {p : TensorMemoryPool}, Partitioned p height none →
    (∀ b ∈ p.allocatedBlocks, b ∈ blocks) →
    Partitioned (p.run (blocks.map fun b => .free b.addr)) height none ∧
      (p.run (blocks.map fun b => .free b.addr)).allocatedBlocks = [] ∧
      SamePool p (p.run (blocks.map fun b => .free b.addr))
  | [], p, h, hall => by
    refine ⟨h, List.eq_nil_iff_forall_not_mem.mpr fun b hb => ?_, SamePool.refl p⟩
    cases hall b hb
  | b :: blocks, p, h, hall => by
    have hcall := call_partitioned h (.free b.addr)
    have hrest : ∀ c ∈ (p.call (.free b.addr)).allocatedBlocks, c ∈ blocks := by
      intro c hc
      have hmem : c ∈ p.allocatedBlocks ∧ c.addr ≠ b.addr := by
        dsimp only [call] at hc
        rcases free_spec h b.addr with ⟨p', -, -, -, heq, -, -, hused⟩ | ⟨heq, hno⟩
        · rw [heq] at hc
          dsimp only at hc
          rw [hused] at hc
          exact mem_dictDel.mp hc
        · rw [heq] at hc
          exact ⟨hc, hno c hc⟩
      refine (List.mem_cons.mp (hall c hmem.1)).resolve_left fun heq => hmem.2 (by rw [heq])
    obtain ⟨hp, hempty, hsame⟩ := run_free_all hcall.1 hrest
    exact ⟨hp, hempty, hsame.1.trans hcall.2.1, hsame.2.trans hcall.2.2, hsame.3.trans hcall.2.3⟩

end

end TensorMemoryPool

open TensorMemoryPool

/-- After any calls the free and the allocated blocks are a buddy partition of the pinned memory, and the next call does
what it promises. -/
theorem pool_partitioned (maxBlockSize minBlockSize base : Int) (p₀ : TensorMemoryPool)
    (hinit : TensorMemoryPool.init maxBlockSize minBlockSize base = .ok p₀)
    (hratio : p₀.maxBlockSize ≤ p₀.minBlockSize * 2 ^ 30) (calls : List Call) :
    ∃ height, Partitioned (p₀.run calls) height none ∧
    (∀ size p' addr, (p₀.run calls).allocate size = (p', .ok addr) →
      ∃ b, p'.allocatedBlocks = (p₀.run calls).allocatedBlocks ++ [b] ∧ b.addr = addr ∧ size ≤ b.size) ∧
    (∀ size, ((p₀.run calls).allocate size).2 = .error .insufficientMemory ↔
      0 < size ∧ roundToPowerOfTwo (max size.toNat (p₀.run calls).minBlockSize) ≤ (p₀.run calls).maxBlockSize ∧
        ∀ b, (p₀.run calls).Has none .free b →
          b.size < roundToPowerOfTwo (max size.toNat (p₀.run calls).minBlockSize)) ∧
    (∀ size, ((p₀.run calls).allocate size).2 = .error .exceedsMaximum ↔
      0 < size ∧ (p₀.run calls).maxBlockSize < roundToPowerOfTwo (max size.toNat (p₀.run calls).minBlockSize)) ∧
    (∀ size, ((p₀.run calls).allocate size).2 = .error .allocationSize ↔ size ≤ 0) ∧
    (∀ size p' e, (p₀.run calls).allocate size = (p', .error e) → p' = p₀.run calls) ∧
    (∀ addr p' e, (p₀.run calls).free addr = (p', .error e) → p' = p₀.run calls) ∧
    ∀ k b, ((p₀.run calls).run ((p₀.run calls).allocatedBlocks.map fun b => .free b.addr)).Has none k b ↔
      k = .free ∧ b = ⟨(p₀.run calls).maxBlockSize, (p₀.run calls).baseAddress⟩ := by
  obtain ⟨height, h₀⟩ := init_spec hinit hratio
  generalize hp : p₀.run calls = p
  have h : Partitioned p height none := hp ▸ run_partitioned h₀
  refine ⟨height, h, fun size p' addr heq => ?_, allocate_insufficient_iff h, allocate_exceeds_iff h, allocate_size_iff h,
    fun size p' e heq => ?_, fun addr p' e heq => ?_, ?_⟩
  · rcases allocate_spec h size with ⟨p'', b, heq', -, -, hused, -, hle, -⟩ | ⟨heq', -⟩ | ⟨heq', -⟩ | ⟨heq', -⟩
    · rw [heq'] at heq
      cases heq
      exact ⟨b, hused, rfl, hle⟩
    · rw [heq'] at heq
      cases heq
    · rw [heq'] at heq
      cases heq
    · rw [heq'] at heq
      cases heq
  · rcases allocate_spec h size with ⟨p'', b, heq', -⟩ | ⟨heq', -⟩ | ⟨heq', -⟩ | ⟨heq', -⟩
    · rw [heq'] at heq
      cases heq
    · rw [heq'] at heq
      cases heq
      rfl
    · rw [heq'] at heq
      cases heq
      rfl
    · rw [heq'] at heq
      cases heq
      rfl
  · rcases free_spec h addr with ⟨p'', b, -, -, heq', -⟩ | ⟨heq', -⟩
    · rw [heq'] at heq
      cases heq
    · rw [heq'] at heq
      cases heq
      rfl
  · obtain ⟨hall, hempty, hsame⟩ := run_free_all h fun b (hb : b ∈ p.allocatedBlocks) => hb
    rw [h.top, ← hsame.minBlockSize, ← hsame.baseAddress]
    refine hall.blocks.eq_top_of_free fun k b hb => ?_
    cases k with
    | free => rfl
    | used =>
      have : b ∈ ([] : List MemoryBlock) := hempty ▸ hb
      cases this
    | held => cases hb

theorem pool_partitioned_kilobyte : ∃ p₀ height, TensorMemoryPool.init 1024 512 0 = .ok p₀ ∧
    Partitioned (p₀.run [.allocate 100, .allocate 600, .free 0, .free 3]) height none := by
  obtain ⟨height, h, -⟩ := pool_partitioned 1024 512 0 _ rfl (by decide)
    [.allocate 100, .allocate 600, .free 0, .free 3]
  exact ⟨_, height, rfl, h⟩

/-- No free block is as large as the request, and the error is another one. -/
theorem oversized_other_error : ∃ p₀, TensorMemoryPool.init 1024 512 0 = .ok p₀ ∧
    (∀ b, p₀.Has none .free b → b.size < roundToPowerOfTwo (max 2048 p₀.minBlockSize)) ∧
    (p₀.allocate 2048).2 = .error .exceedsMaximum := by
  have hinit : ∃ p₀, TensorMemoryPool.init 1024 512 0 = .ok p₀ ∧ p₀.maxBlockSize = 1024 ∧ p₀.minBlockSize = 512 ∧
      (p₀.allocate 2048).2 = .error .exceedsMaximum := ⟨_, rfl, by decide, by decide, by decide⟩
  obtain ⟨p₀, hp, hmax, hmin, hall⟩ := hinit
  obtain ⟨height, h⟩ := init_spec hp (by omega)
  refine ⟨p₀, hp, fun b hb => ?_, hall⟩
  have hin := h.blocks.inside hb
  have htop := h.top
  have hround : roundToPowerOfTwo (max 2048 p₀.minBlockSize) = 2048 := by
    rw [hmin]
    decide
  omega

end VllmHcu.Du
