import VllmHcu.EpMoe.Sort
import VllmHcu.Lib.Loops
import VllmHcu.Lib.Ranges
import VllmHcu.Lib.RowMajor

/-!
# The direct combine is the masked sum

The slots handed out are the numbers below the counter, one for each further
route, whatever the order of the atomic adds. So the direct GEMM2 stores to no row
twice, and the fix kernel adds the same rows in the same order as the masked sum.
-/

namespace VllmHcu.EpMoe

namespace DirectArgs

/-- What the direct combine is called with: a sorted layout with each local route once, and a cache beside the output. -/
structure Fits (a : DirectArgs) : Prop where
  tokens : a.m < 2 ^ 24
  topk_le : a.topk ≤ 15
  nvalid_le : a.nvalid ≤ a.bound
  sound : ∀ p < a.nvalid, a.tok p < a.m → ∃ k < a.topk, a.choice p = (k : Int) ∧ a.isLocal (a.tok p) k = true
  complete : ∀ t < a.m, ∀ k < a.topk, a.isLocal t k = true → ∃ p < a.nvalid, a.tok p = t ∧ a.choice p = (k : Int)
  once : ∀ p < a.nvalid, ∀ p' < a.nvalid, a.tok p < a.m → a.tok p = a.tok p' → a.choice p = a.choice p' → p = p'
  xoff_eq : ∃ rb d, 2 ≤ rb ∧ epDirectXoff a.m rb a.cap d = some a.xoff
  cache_out : ∀ r < a.m * a.topk, a.m ≤ a.cache3 r
  cache_inj : ∀ r < a.m * a.topk, ∀ r' < a.m * a.topk, a.cache3 r = a.cache3 r' → r = r'

variable {a : DirectArgs} {order : List Nat}

/-! ## The first local route -/

/-- The first local choice of a token, `topk` if it has none. -/
def first (a : DirectArgs) (t : Nat) : Nat := (a.infoPair t).1

theorem infoFold (t : Nat) : ∀ n ≤ a.topk, ∀ s, s = (List.range n).foldl
    (fun s k => (if a.isLocal t k && s.1 == a.topk then k else s.1, s.2 + if a.isLocal t k then 1 else 0)) (a.topk, 0) →
    s.2 = (List.range n).countP (a.isLocal t) ∧
    (s.1 = a.topk ∧ (∀ k < n, a.isLocal t k = false) ∨
      s.1 < n ∧ a.isLocal t s.1 = true ∧ ∀ k < s.1, a.isLocal t k = false)
  | 0, _, s, hs => by
    rw [hs]
    exact ⟨rfl, .inl ⟨rfl, by simp⟩⟩
  | n + 1, hn, s, hs => by
    rw [List.range_succ, List.foldl_append, List.foldl_cons, List.foldl_nil] at hs
    obtain ⟨hc, hf⟩ := infoFold t n (by omega) _ rfl
    generalize (List.range n).foldl
      (fun s k => (if a.isLocal t k && s.1 == a.topk then k else s.1, s.2 + if a.isLocal t k then 1 else 0)) (a.topk, 0) = u
      at hs hc hf
    subst hs
    refine ⟨by rw [List.range_succ, List.countP_append, List.countP_singleton, ← hc], ?_⟩
    rcases hf with ⟨htop, hnone⟩ | ⟨hlt, hloc, hbefore⟩
    · cases hl : a.isLocal t n with
      | true => exact .inr (by simpa [htop] using ⟨hl, hnone⟩)
      | false =>
        refine .inl ⟨by simp [htop], ?_⟩
        intro k hk
        rcases Nat.lt_succ_iff_lt_or_eq.mp hk with hk | rfl
        · exact hnone k hk
        · exact hl
    · have hne : (u.1 == a.topk) = false := beq_false_of_ne (by omega)
      simp only [hne, Bool.and_false, Bool.false_eq_true, if_false]
      exact .inr ⟨by omega, hloc, hbefore⟩

theorem count_eq (t : Nat) : (a.infoPair t).2 = (List.range a.topk).countP (a.isLocal t) :=
  (infoFold t a.topk (Nat.le_refl _) _ rfl).1

theorem first_cases (t : Nat) : a.first t = a.topk ∧ (∀ k < a.topk, a.isLocal t k = false) ∨
    a.first t < a.topk ∧ a.isLocal t (a.first t) = true ∧ ∀ k < a.first t, a.isLocal t k = false :=
  (infoFold t a.topk (Nat.le_refl _) _ rfl).2

theorem info_eq (h : a.Fits) (t : Nat) : a.info t &&& 15 = a.first t ∧ a.info t >>> 4 = (a.infoPair t).2 := by
  have hle : a.first t < 2 ^ 4 := by
    have := h.topk_le
    rcases first_cases (a := a) t with ⟨heq, -⟩ | ⟨hlt, -⟩ <;> omega
  have hinfo : a.info t = 2 ^ 4 * (a.infoPair t).2 + a.first t := by
    rw [Nat.two_pow_add_eq_or_of_lt hle, Nat.or_comm, info, Nat.shiftLeft_eq, Nat.mul_comm]
    rfl
  rw [hinfo, Nat.shiftRight_eq_div_pow, show 15 = 2 ^ 4 - 1 by rfl, Nat.and_two_pow_sub_one_eq_mod]
  omega

/-! ## Slots -/

theorem programSlots_snd (base g : Nat) :
    (a.programSlots base g).map Prod.snd = List.range' base (a.programSlots base g).length := by
  have hrank := map_rank (fun i => a.extra (g * 1024 + i)) 1024
  have hlen : (a.programSlots base g).length = (List.range 1024).countP fun i => a.extra (g * 1024 + i) := by
    rw [programSlots, List.length_map, List.countP_eq_length_filter]
  rw [hlen, List.range'_eq_map_range, ← hrank]
  simp [programSlots, Function.comp_def]

theorem reserve_snd : ∀ (ctr : Nat) (order : List Nat),
    (a.reserve ctr order).map Prod.snd = List.range' ctr (a.reserve ctr order).length
  | _, [] => rfl
  | ctr, g :: gs => by
    unfold reserve
    rw [List.map_append, programSlots_snd, reserve_snd, List.length_append, List.range'_append_1]

theorem reserve_fst : ∀ (ctr : Nat) (order : List Nat), (a.reserve ctr order).map Prod.fst =
    order.flatMap fun g => ((List.range' (g * 1024) 1024).filter a.extra)
  | _, [] => rfl
  | ctr, g :: gs => by
    unfold reserve
    rw [List.map_append, reserve_fst, List.flatMap_cons, List.range'_eq_map_range, List.filter_map]
    simp [programSlots, Function.comp_def]

theorem ok_iff {p : Nat} : a.ok p = true ↔ p < a.bound ∧ p < a.nvalid ∧ a.tok p < a.m := by
  simp [ok, and_assoc]

theorem extra_lt {p : Nat} (h : a.extra p = true) : p < a.bound := by
  unfold extra at h
  exact (ok_iff.mp (by simp_all)).1

variable (horder : order.Perm (List.range (cdiv a.bound 1024)))
include horder

theorem slots_fst : ((a.slots order).map Prod.fst).Perm ((List.range a.bound).filter a.extra) := by
  unfold slots
  rw [reserve_fst]
  refine (horder.flatMap_right _).trans ?_
  obtain ⟨k, hk⟩ := Nat.exists_eq_add_of_le (le_cdiv_mul a.bound (show 0 < 1024 by decide))
  have htiles := flatMap_range' 0 1024 (cdiv a.bound 1024)
  simp only [Nat.zero_add] at htiles
  rw [← List.filter_flatMap, htiles, ← List.range_eq_range', hk, filter_range_add]
  intro i _
  by_contra hne
  have := extra_lt (Bool.eq_true_of_not_eq_false hne)
  omega

theorem slots_nodup : ((a.slots order).map Prod.fst).Nodup :=
  (slots_fst horder).nodup_iff.mpr (List.nodup_range.filter _)

/-- A further route has one slot, and the others have other slots. -/
theorem slot_spec {p : Nat} (hp : a.extra p = true) : (p, a.slotOf order p) ∈ a.slots order ∧ a.slotOf order p < a.ctr order := by
  have hmem : p ∈ (a.slots order).map Prod.fst :=
    (slots_fst horder).mem_iff.mpr (List.mem_filter.mpr ⟨List.mem_range.mpr (extra_lt hp), hp⟩)
  obtain ⟨⟨p', s⟩, hw, rfl⟩ := List.mem_map.mp hmem
  have hfind : ∃ w, (a.slots order).find? (fun w => w.1 == p') = some w := by
    rw [← Option.isSome_iff_exists, List.find?_isSome]
    exact ⟨_, hw, by simp⟩
  obtain ⟨w, hfound⟩ := hfind
  have hkey := List.find?_some hfound
  have hin := List.mem_of_find?_eq_some hfound
  have heq : w.1 = p' := by simpa using hkey
  have hslot : (p', a.slotOf order p') ∈ a.slots order := by
    unfold slotOf
    rw [hfound, ← heq]
    exact hin
  refine ⟨hslot, ?_⟩
  have hsnd : a.slotOf order p' ∈ (a.slots order).map Prod.snd := List.mem_map.mpr ⟨_, hslot, rfl⟩
  unfold slots at hsnd
  rw [reserve_snd, List.mem_range'_1] at hsnd
  have hlt : a.slotOf order p' < (a.reserve 0 order).length := by omega
  exact hlt

theorem mem_slots {w : Nat × Nat} (hw : w ∈ a.slots order) : a.extra w.1 = true ∧ w.2 = a.slotOf order w.1 := by
  have hmem : w.1 ∈ (List.range a.bound).filter a.extra := (slots_fst horder).mem_iff.mp (List.mem_map.mpr ⟨w, hw, rfl⟩)
  have hextra := (List.mem_filter.mp hmem).2
  refine ⟨hextra, ?_⟩
  have := List.inj_on_of_nodup_map (slots_nodup horder) hw (slot_spec horder hextra).1 rfl
  exact congrArg Prod.snd this

theorem slot_inj {p p' : Nat} (hp : a.extra p = true) (hp' : a.extra p' = true) (h : a.slotOf order p = a.slotOf order p') : p = p' := by
  have hnodup : ((a.slots order).map Prod.snd).Nodup := by
    unfold slots
    rw [reserve_snd]
    exact List.nodup_range'
  have := List.inj_on_of_nodup_map hnodup (slot_spec horder hp).1 (slot_spec horder hp').1 h
  exact congrArg Prod.fst this

omit horder

/-! ## Routes and rows -/

theorem token_row {p : Nat} (hok : a.ok p = true) (hx : a.extra p = false) : a.rows2 order p = a.tok p := by
  rw [rows2, if_pos hok, if_neg (by simp [hx])]

theorem extra_row {p : Nat} (hx : a.extra p = true) : a.rows2 order p = a.xoff + a.slotOf order p := by
  have hok : a.ok p = true := by
    unfold extra at hx
    simp_all
  rw [rows2, if_pos hok, if_pos hx]

theorem extra_iff (h : a.Fits) {p : Nat} (hok : a.ok p = true) : a.extra p = true ↔ a.choice p ≠ (a.first (a.tok p) : Int) := by
  rw [extra, hok, (info_eq h _).1]
  simp

/-- The choice of a sorted row that holds a route. -/
theorem route_of_ok (h : a.Fits) {p : Nat} (hok : a.ok p = true) :
    ∃ k < a.topk, a.choice p = (k : Int) ∧ a.isLocal (a.tok p) k = true ∧ a.first (a.tok p) ≤ k := by
  obtain ⟨-, hp, ht⟩ := ok_iff.mp hok
  obtain ⟨k, hk, hc, hl⟩ := h.sound p hp ht
  refine ⟨k, hk, hc, hl, ?_⟩
  by_contra hlt
  have hfalse : a.isLocal (a.tok p) k = false := by
    rcases first_cases (a := a) (a.tok p) with ⟨-, hnone⟩ | ⟨-, -, hbefore⟩
    · exact hnone k hk
    · exact hbefore k (by omega)
  rw [hl] at hfalse
  cases hfalse

theorem xoff_spec (h : a.Fits) : a.m ≤ a.xoff ∧ a.xoff + a.cap < directBig - 1 := by
  obtain ⟨rb, d, hrb, hx⟩ := h.xoff_eq
  unfold epDirectXoff at hx
  split at hx
  · cases hx
  · rename_i hc
    obtain ⟨hlow, hdvd, hhigh⟩ := not_or.mp hc |>.imp_right not_or.mp
    obtain ⟨q, hq⟩ := Int.dvd_of_emod_eq_zero (not_not.mp hdvd)
    have hrb' : (rb : Int) ≠ 0 := by omega
    have hxoff : q.toNat = a.xoff := by
      rw [hq, Int.mul_ediv_cancel_left _ hrb'] at hx
      exact Option.some.inj hx
    rw [hq] at hlow hhigh
    have hle : (a.m : Int) ≤ q := by
      by_contra hlt
      have := Int.mul_lt_mul_of_pos_right (Int.not_le.mp hlt) (show (0 : Int) < rb by omega)
      rw [Int.mul_comm q] at this
      exact hlow this
    have hsum : ((q + a.cap : Int)) * 2 ≤ (q + a.cap) * rb := Int.mul_le_mul_of_nonneg_left (by omega) (by omega)
    have : (q + a.cap) * rb = rb * q + a.cap * rb := by rw [Int.add_mul, Int.mul_comm q]
    refine ⟨by omega, ?_⟩
    unfold directBig
    omega

include horder

theorem rows2_lt (h : a.Fits) (hover : a.overflows order = false) {p : Nat} (hok : a.ok p = true) :
    a.rows2 order p < directBig - 1 := by
  obtain ⟨hm, hbig⟩ := xoff_spec h
  have hctr : a.ctr order ≤ a.cap := by simpa [overflows] using hover
  cases hx : a.extra p with
  | true =>
    have := (slot_spec horder hx).2
    rw [extra_row hx]
    omega
  | false =>
    have := (ok_iff.mp hok).2.2
    rw [token_row hok hx]
    omega

/-- The direct GEMM2 stores no two sorted rows to one row. -/
theorem rows2_inj (h : a.Fits) {p p' : Nat} (hok : a.ok p = true) (hok' : a.ok p' = true)
    (he : a.rows2 order p = a.rows2 order p') : p = p' := by
  obtain ⟨hm, -⟩ := xoff_spec h
  obtain ⟨-, hp, ht⟩ := ok_iff.mp hok
  obtain ⟨-, hp', ht'⟩ := ok_iff.mp hok'
  cases hx : a.extra p with
  | true =>
    rw [extra_row hx] at he
    cases hx' : a.extra p' with
    | true =>
      rw [extra_row hx'] at he
      exact slot_inj horder hx hx' (by omega)
    | false =>
      rw [token_row hok' hx'] at he
      omega
  | false =>
    rw [token_row hok hx] at he
    cases hx' : a.extra p' with
    | true =>
      rw [extra_row hx'] at he
      omega
    | false =>
      rw [token_row hok' hx'] at he
      have hc := mt (extra_iff h hok).mpr (by simp [hx])
      have hc' := mt (extra_iff h hok').mpr (by simp [hx'])
      rw [not_not] at hc hc'
      exact h.once p hp p' hp' ht he (by rw [hc, hc', he])

/-! ## The memory after the GEMMs -/

section
variable {R F : Type} {fmt : RowFormat R F} {val : Nat → R} {mem : Nat → R}

variable (val mem) in
theorem gemms_direct (h : a.Fits) (hover : a.overflows order = false) {p : Nat} (hok : a.ok p = true) :
    a.gemms order val mem (a.rows2 order p) = val p := by
  have hfallback : a.fallbackStores order val = [] := by simp [fallbackStores, gate1, hover]
  unfold gemms
  rw [hfallback, scatter_nil]
  refine scatter_of_mem mem ?_ ?_
  · unfold directStores
    rw [List.map_map]
    refine List.Nodup.map_on ?_ (List.nodup_range.filter _)
    intro p hp p' hp' he
    have hokOf : ∀ q ∈ (List.range (a.gate0 order)).filter (fun p => a.rows2 order p < directBig - 1), a.ok q = true := by
      intro q hq
      by_contra hne
      have := of_decide_eq_true (List.mem_filter.mp hq).2
      rw [rows2, if_neg hne] at this
      omega
    exact rows2_inj horder h (hokOf p hp) (hokOf p' hp') he
  · refine List.mem_map.mpr ⟨p, List.mem_filter.mpr ⟨?_, decide_eq_true (rows2_lt horder h hover hok)⟩, rfl⟩
    simp [gate0, hover, (ok_iff.mp hok).2.1]

omit horder in
variable (val mem) in
theorem gemms_fallback (h : a.Fits) (hover : a.overflows order = true) {p : Nat} (hok : a.ok p = true) {k : Nat}
    (hc : a.choice p = (k : Int)) : a.gemms order val mem (a.cache3 (a.tok p * a.topk + k)) = val p := by
  have hdirect : a.directStores order val = [] := by simp [directStores, gate0, hover]
  have hgate : a.gate1 order = a.nvalid := by simp [gate1, hover]
  have haddr : ∀ q < a.nvalid, a.tok q < a.m → ∃ k < a.topk, a.choice q = (k : Int) ∧
      ((a.tok q * a.topk : Nat) + a.choice q).toNat = a.tok q * a.topk + k ∧ a.tok q * a.topk + k < a.m * a.topk := by
    intro q hq ht
    obtain ⟨k, hk, hc, -⟩ := h.sound q hq ht
    exact ⟨k, hk, hc, by omega, block_lt ht hk⟩
  obtain ⟨-, hp, ht⟩ := ok_iff.mp hok
  unfold gemms
  rw [hdirect, scatter_nil]
  refine scatter_of_mem mem ?_ ?_
  · unfold fallbackStores
    rw [List.map_map, hgate]
    refine List.Nodup.map_on ?_ (List.nodup_range.filter _)
    intro q hq q' hq' he
    obtain ⟨hq, hqt⟩ := List.mem_filter.mp hq
    obtain ⟨hq', hqt'⟩ := List.mem_filter.mp hq'
    simp only [List.mem_range, decide_eq_true_eq] at hq hqt hq' hqt'
    obtain ⟨k, hk, hck, hka, hkl⟩ := haddr q hq hqt
    obtain ⟨k', hk', hck', hka', hkl'⟩ := haddr q' hq' hqt'
    simp only [Function.comp_apply, hka, hka'] at he
    have hflat := h.cache_inj _ hkl _ hkl' he
    have htok := congrArg (· / a.topk) hflat
    have hmod := congrArg (· % a.topk) hflat
    simp only [block_div hk, block_div hk', block_mod hk, block_mod hk'] at htok hmod
    exact h.once q hq q' hq' hqt htok (by rw [hck, hck', hmod])
  · refine List.mem_map.mpr ⟨p, List.mem_filter.mpr ⟨by rw [hgate]; exact List.mem_range.mpr hp, decide_eq_true ht⟩, ?_⟩
    rw [hc]
    simp only [Prod.mk.injEq, and_true]
    congr 1

/-- The inverse table of a route: its slot if it is a further route. -/
theorem inv_eq (h : a.Fits) {t k : Nat} (hk : k < a.topk) :
    (a.isLocal t k = false → a.inv order (t * a.topk + k : Nat) = -1) ∧
    ∀ p, a.extra p = true → a.tok p = t → a.choice p = (k : Int) → a.inv order (t * a.topk + k : Nat) = a.slotOf order p := by
  have hroute : ∀ w ∈ a.slots order, ∃ k' < a.topk, a.choice w.1 = (k' : Int) ∧ a.isLocal (a.tok w.1) k' = true ∧
      w.1 < a.nvalid ∧ a.tok w.1 < a.m := by
    intro w hw
    have hx := (mem_slots horder hw).1
    have hok : a.ok w.1 = true := by
      unfold extra at hx
      simp_all
    obtain ⟨k', hk', hc, hl, -⟩ := route_of_ok h hok
    exact ⟨k', hk', hc, hl, (ok_iff.mp hok).2⟩
  constructor
  · intro hl
    refine scatter_of_not_mem _ ?_
    rw [List.map_map]
    intro hmem
    obtain ⟨w, hw, he⟩ := List.mem_map.mp hmem
    obtain ⟨k', hk', hc, hl', -, -⟩ := hroute w hw
    simp only [Function.comp_apply, hc] at he
    have he : a.tok w.1 * a.topk + k' = t * a.topk + k := by omega
    have htok := congrArg (· / a.topk) he
    have hmod := congrArg (· % a.topk) he
    simp only [block_div hk, block_div hk', block_mod hk, block_mod hk'] at htok hmod
    rw [htok, hmod, hl] at hl'
    cases hl'
  · intro p hx htok hc
    refine scatter_of_mem _ ?_ ?_
    · rw [List.map_map]
      refine List.Nodup.map_on ?_ (List.Nodup.of_map _ (slots_nodup horder))
      intro w hw w' hw' he
      obtain ⟨k₁, hk₁, hc₁, -, hn₁, ht₁⟩ := hroute w hw
      obtain ⟨k₂, hk₂, hc₂, -, hn₂, -⟩ := hroute w' hw'
      simp only [Function.comp_apply, hc₁, hc₂] at he
      have he : a.tok w.1 * a.topk + k₁ = a.tok w'.1 * a.topk + k₂ := by omega
      have htok := congrArg (· / a.topk) he
      have hmod := congrArg (· % a.topk) he
      simp only [block_div hk₁, block_div hk₂, block_mod hk₁, block_mod hk₂] at htok hmod
      have hp := h.once w.1 hn₁ w'.1 hn₂ ht₁ htok (by rw [hc₁, hc₂, hmod])
      exact List.inj_on_of_nodup_map (slots_nodup horder) hw hw' hp
    · refine List.mem_map.mpr ⟨_, (slot_spec horder hx).1, ?_⟩
      simp only [htok, hc, Nat.cast_add]

/-! ## The sums -/

omit horder in
variable (fmt) in
/-- The masked sum starts at the first local choice. -/
theorem foldl_from_first (row : Nat → R) {t : Nat} (hf : a.first t < a.topk) :
    ∃ rest, List.range a.topk = List.range (a.first t + 1) ++ rest ∧ (∀ k ∈ rest, a.first t < k ∧ k < a.topk) ∧
      (List.range (a.first t + 1)).foldl
        (fun acc k => if a.isLocal t k then fmt.add acc (fmt.toF32 (row k)) else acc) fmt.zero =
        fmt.add fmt.zero (fmt.toF32 (row (a.first t))) := by
  obtain ⟨-, hloc, hbefore⟩ := (first_cases (a := a) t).resolve_left (by omega)
  obtain ⟨n, hn⟩ := Nat.exists_eq_add_of_le (show a.first t + 1 ≤ a.topk by omega)
  refine ⟨(List.range n).map (a.first t + 1 + ·), by rw [hn, List.range_add], ?_, ?_⟩
  · intro k hk
    obtain ⟨i, hi, rfl⟩ := List.mem_map.mp hk
    have := List.mem_range.mp hi
    omega
  · have hskip : ∀ n ≤ a.first t, (List.range n).foldl
        (fun acc k => if a.isLocal t k then fmt.add acc (fmt.toF32 (row k)) else acc) fmt.zero = fmt.zero := by
      intro n hn
      induction n with
      | zero => rfl
      | succ n ih =>
        rw [List.range_succ, List.foldl_append, ih (by omega), List.foldl_cons, List.foldl_nil,
          if_neg (by rw [hbefore n (by omega)]; exact Bool.false_ne_true)]
    rw [List.range_succ, List.foldl_append, hskip _ (Nat.le_refl _), List.foldl_cons, List.foldl_nil, if_pos hloc]

omit horder in
theorem foldl_none (row : Nat → R) {t : Nat} (hnone : ∀ k < a.topk, a.isLocal t k = false) :
    a.maskedMoeSum fmt row t = fmt.ofF32 fmt.zero := by
  unfold maskedMoeSum
  congr 1
  have : ∀ l : List Nat, (∀ k ∈ l, a.isLocal t k = false) →
      l.foldl (fun acc k => if a.isLocal t k then fmt.add acc (fmt.toF32 (row k)) else acc) fmt.zero = fmt.zero := by
    intro l hl
    induction l with
    | nil => rfl
    | cons k l ih =>
      rw [List.foldl_cons, if_neg (by rw [hl k List.mem_cons_self]; exact Bool.false_ne_true)]
      exact ih fun k hk => hl k (List.mem_cons_of_mem _ hk)
  exact this _ fun k hk => hnone k (List.mem_range.mp hk)

omit horder in
theorem foldl_congr_mem {α β : Type} {f g : α → β → α} {l : List β} (h : ∀ x ∈ l, ∀ acc, f acc x = g acc x) (acc : α) :
    l.foldl f acc = l.foldl g acc := by
  induction l generalizing acc with
  | nil => rfl
  | cons x l ih =>
    rw [List.foldl_cons, List.foldl_cons, h x List.mem_cons_self]
    exact ih (fun y hy => h y (List.mem_cons_of_mem _ hy)) _

omit horder in
/-- A sorted row of a local choice. -/
theorem exists_row (h : a.Fits) {t k : Nat} (ht : t < a.m) (hk : k < a.topk) (hl : a.isLocal t k = true) :
    ∃ p, a.ok p = true ∧ a.tok p = t ∧ a.choice p = (k : Int) := by
  obtain ⟨p, hp, htok, hc⟩ := h.complete t ht k hk hl
  have := h.nvalid_le
  exact ⟨p, ok_iff.mpr ⟨by omega, hp, by omega⟩, htok, hc⟩

variable (mem) in
/-- The first local route of a token is in its output row. -/
theorem gemms_first (h : a.Fits) (hover : a.overflows order = false) {row : Nat → Nat → R}
    (hrow : ∀ p, a.ok p = true → row (a.tok p) (a.choice p).toNat = val p) {t : Nat} (ht : t < a.m)
    (hf : a.first t < a.topk) : a.gemms order val mem t = row t (a.first t) := by
  obtain ⟨-, hloc, -⟩ := (first_cases (a := a) t).resolve_left (by omega)
  obtain ⟨p, hok, htok, hc⟩ := exists_row h ht hf hloc
  have hx : a.extra p = false := by
    by_contra hx
    exact (extra_iff h hok).mp (by simpa using hx) (by rw [hc, htok])
  have hval := gemms_direct horder val mem h hover hok
  rw [token_row hok hx, htok] at hval
  rw [hval, ← hrow p hok, htok, hc, Int.toNat_natCast]

theorem fixRow_eq (h : a.Fits) (hfmt : ∀ r, fmt.ofF32 (fmt.add fmt.zero (fmt.toF32 r)) = r) {row : Nat → Nat → R}
    (hrow : ∀ p, a.ok p = true → row (a.tok p) (a.choice p).toNat = val p) {t : Nat} (ht : t < a.m) :
    a.fixRow order fmt (a.gemms order val mem) t = a.maskedMoeSum fmt (row t) t := by
  obtain ⟨hfirst, hcount⟩ := info_eq h t
  unfold fixRow
  simp only [hfirst, hcount]
  cases hover : a.overflows order with
  | true =>
    -- the cache holds the rows of the local routes
    simp only [Bool.true_or, if_true, maskedMoeSum]
    congr 1
    refine foldl_congr_mem (fun k hk acc => ?_) _
    cases hl : a.isLocal t k with
    | false => rfl
    | true =>
      obtain ⟨p, hok, htok, hc⟩ := exists_row h ht (List.mem_range.mp hk) hl
      have hval := gemms_fallback val mem h hover hok hc
      rw [htok] at hval
      rw [hval, ← hrow p hok, htok, hc, Int.toNat_natCast]
  | false =>
    simp only [Bool.false_or, Bool.false_eq_true, if_false]
    rcases first_cases (a := a) t with ⟨hf, hnone⟩ | ⟨hf, hloc, hbefore⟩
    · have hzero : (a.infoPair t).2 = 0 := by
        rw [count_eq, List.countP_eq_zero]
        intro k hk
        simp [hnone k (List.mem_range.mp hk)]
      rw [hzero, if_pos (by decide), if_neg (by decide)]
      exact (foldl_none _ hnone).symm
    · have hout := gemms_first horder mem h hover hrow ht hf
      obtain ⟨rest, hsplit, hrest, hprefix⟩ := foldl_from_first fmt (row t) hf
      have hsum : (List.range a.topk).foldl
          (fun acc k => if a.isLocal t k then fmt.add acc (fmt.toF32 (row t k)) else acc) fmt.zero =
          rest.foldl (fun acc k => if a.isLocal t k then fmt.add acc (fmt.toF32 (row t k)) else acc)
            (fmt.add fmt.zero (fmt.toF32 (row t (a.first t)))) := by
        rw [hsplit, List.foldl_append, hprefix]
      rw [maskedMoeSum, hsum]
      have hpos : 0 < (a.infoPair t).2 := by
        rw [count_eq, List.countP_pos_iff]
        exact ⟨_, List.mem_range.mpr hf, hloc⟩
      by_cases hone : (a.infoPair t).2 = 1
      · -- only the first choice is local
        have hothers : ∀ k ∈ rest, a.isLocal t k = false := by
          intro k hk
          by_contra hl
          have hrestpos : 0 < rest.countP (a.isLocal t) := List.countP_pos_iff.mpr ⟨k, hk, by simpa using hl⟩
          have hprepos : 0 < (List.range (a.first t + 1)).countP (a.isLocal t) :=
            List.countP_pos_iff.mpr ⟨_, List.mem_range.mpr (Nat.lt_succ_self _), hloc⟩
          rw [count_eq, hsplit, List.countP_append] at hone
          omega
        have hskip : rest.foldl (fun acc k => if a.isLocal t k then fmt.add acc (fmt.toF32 (row t k)) else acc)
            (fmt.add fmt.zero (fmt.toF32 (row t (a.first t)))) = fmt.add fmt.zero (fmt.toF32 (row t (a.first t))) := by
          rw [foldl_congr_mem (g := fun acc _ => acc) fun k hk acc => by rw [hothers k hk]; rfl]
          induction rest <;> simp_all
        rw [hone, if_neg (by decide), hskip, hfmt, hout]
      · rw [if_pos (by simpa using hone), if_pos (by omega)]
        have hkeep : ∀ acc, (List.range (a.first t + 1)).foldl
            (fun acc k => if k > a.first t then
              (if a.inv order (t * a.topk + k : Nat) ≥ 0 then
                fmt.add acc (fmt.toF32 (a.gemms order val mem (a.xoff + (a.inv order (t * a.topk + k : Nat)).toNat))) else acc)
              else acc) acc = acc := by
          intro acc
          rw [foldl_congr_mem (g := fun acc _ => acc) fun k hk acc => if_neg (by have := List.mem_range.mp hk; omega)]
          induction List.range (a.first t + 1) <;> simp_all
        rw [hsplit, List.foldl_append, hkeep, hout]
        congr 1
        refine foldl_congr_mem (fun k hk acc => ?_) _
        obtain ⟨hgt, hlt⟩ := hrest k hk
        rw [if_pos hgt]
        obtain ⟨hnone, hslot⟩ := inv_eq horder h (t := t) hlt
        cases hl : a.isLocal t k with
        | false =>
          rw [hnone hl]
          simp
        | true =>
          obtain ⟨p, hok, htok, hc⟩ := exists_row h ht hlt hl
          have hx : a.extra p = true := (extra_iff h hok).mpr (by rw [hc, htok]; omega)
          have hval := gemms_direct horder val mem h hover hok
          rw [extra_row hx] at hval
          have hslot := hslot p hx htok hc
          simp only [hslot, Int.toNat_natCast, hval, ← hrow p hok, htok, hc]
          rw [if_pos (Int.natCast_nonneg _), if_pos trivial]

end

omit horder in
/-- The rows the two GEMMs store to. -/
theorem stores_inside {R : Type} (h : a.Fits) (horder : order.Perm (List.range (cdiv a.bound 1024))) (val : Nat → R) :
    (∀ w ∈ a.directStores order val, a.overflows order = false ∧ (w.1 < a.m ∨ a.xoff ≤ w.1 ∧ w.1 < a.xoff + a.cap)) ∧
    ∀ w ∈ a.fallbackStores order val, a.overflows order = true ∧ ∃ r < a.m * a.topk, w.1 = a.cache3 r := by
  constructor
  · intro w hw
    obtain ⟨p, hp, rfl⟩ := List.mem_map.mp hw
    obtain ⟨hp, hbig⟩ := List.mem_filter.mp hp
    have hover : a.overflows order = false := by
      by_contra hne
      simp [gate0, Bool.eq_true_of_not_eq_false hne] at hp
    have hctr : a.ctr order ≤ a.cap := by simpa [overflows] using hover
    have hbig := of_decide_eq_true hbig
    refine ⟨hover, ?_⟩
    by_cases hok : a.ok p = true
    · cases hx : a.extra p with
      | true =>
        have := (slot_spec horder hx).2
        rw [extra_row hx]
        omega
      | false =>
        rw [token_row hok hx]
        exact .inl (ok_iff.mp hok).2.2
    · rw [rows2, if_neg hok] at hbig
      omega
  · intro w hw
    obtain ⟨p, hp, rfl⟩ := List.mem_map.mp hw
    obtain ⟨hp, ht⟩ := List.mem_filter.mp hp
    have hover : a.overflows order = true := by
      by_contra hne
      simp [gate1, Bool.eq_false_of_not_eq_true hne] at hp
    rw [gate1, if_pos hover, List.mem_range] at hp
    obtain ⟨k, hk, hc, -⟩ := h.sound p hp (of_decide_eq_true ht)
    refine ⟨hover, a.tok p * a.topk + k, block_lt (of_decide_eq_true ht) hk, ?_⟩
    rw [hc]
    congr 1

omit horder in
/-- Each local route has one row. -/
theorem exists_rows {R : Type} (h : a.Fits) (val : Nat → R) :
    ∃ row : Nat → Nat → R, ∀ p, a.ok p = true → row (a.tok p) (a.choice p).toNat = val p := by
  classical
  refine ⟨fun t k => if hp : ∃ p, a.ok p = true ∧ a.tok p = t ∧ a.choice p = (k : Int) then val hp.choose else val 0, ?_⟩
  intro p hok
  obtain ⟨k, -, hc, -⟩ := route_of_ok h hok
  have hex : ∃ q, a.ok q = true ∧ a.tok q = a.tok p ∧ a.choice q = ((a.choice p).toNat : Int) :=
    ⟨p, hok, rfl, by rw [hc, Int.toNat_natCast]⟩
  simp only [hex, dif_pos]
  obtain ⟨hok', htok, hc'⟩ := hex.choose_spec
  obtain ⟨-, hp, -⟩ := ok_iff.mp hok
  obtain ⟨-, hp', ht'⟩ := ok_iff.mp hok'
  exact congrArg val (h.once _ hp' p hp ht' htok (hc'.trans (by omega)))

/-- Everything the direct combine is for. -/
structure Combines {R F : Type} (a : DirectArgs) (order : List Nat) (fmt : RowFormat R F) (val mem : Nat → R) : Prop where
  out : ∀ row : Nat → Nat → R, (∀ p, a.ok p = true → row (a.tok p) (a.choice p).toNat = val p) →
    ∀ t < a.m, a.directCombine order fmt val mem t = a.maskedMoeSum fmt (row t) t
  zero : ∀ t < a.m, (∀ k < a.topk, a.isLocal t k = false) → a.directCombine order fmt val mem t = fmt.ofF32 fmt.zero
  counted : a.ctr order = (List.range a.bound).countP a.extra
  slots : (List.range a.bound).countP a.extra ≤ a.cap → ∀ p, a.extra p = true →
    a.xoff ≤ a.rows2 order p ∧ a.rows2 order p < a.xoff + a.cap ∧
    ∀ p', a.extra p' = true → a.rows2 order p = a.rows2 order p' → p = p'
  writes : (∀ w ∈ a.directStores order val, a.overflows order = false ∧ (w.1 < a.m ∨ a.xoff ≤ w.1 ∧ w.1 < a.xoff + a.cap)) ∧
    ∀ w ∈ a.fallbackStores order val, a.overflows order = true ∧ ∃ r < a.m * a.topk, w.1 = a.cache3 r
  frame : ∀ i, a.m ≤ i → i ∉ (a.directStores order val).map Prod.fst → i ∉ (a.fallbackStores order val).map Prod.fst →
    a.directCombine order fmt val mem i = mem i

omit horder in
/-- The direct combine gives every token the masked sum of its local routes. -/
theorem direct_combine_masked_sum {R F : Type} (a : DirectArgs) (h : a.Fits) {order : List Nat}
    (horder : order.Perm (List.range (cdiv a.bound 1024))) (fmt : RowFormat R F)
    (hfmt : ∀ r, fmt.ofF32 (fmt.add fmt.zero (fmt.toF32 r)) = r) (val mem : Nat → R) : a.Combines order fmt val mem := by
  have hctr : a.ctr order = (List.range a.bound).countP a.extra := by
    rw [List.countP_eq_length_filter, ← (slots_fst horder).length_eq, List.length_map]
    rfl
  have hout : ∀ row : Nat → Nat → R, (∀ p, a.ok p = true → row (a.tok p) (a.choice p).toNat = val p) →
      ∀ t < a.m, a.directCombine order fmt val mem t = a.maskedMoeSum fmt (row t) t := by
    intro row hrow t ht
    rw [directCombine, if_pos ht]
    exact fixRow_eq horder h hfmt hrow ht
  refine ⟨hout, ?_, hctr, ?_, stores_inside h horder val, ?_⟩
  · intro t ht hnone
    obtain ⟨row, hrow⟩ := exists_rows h val
    rw [hout row hrow t ht, foldl_none _ hnone]
  · intro hcap p hx
    have hslot := (slot_spec horder hx).2
    rw [extra_row hx]
    refine ⟨by omega, by omega, ?_⟩
    intro p' hx' he
    rw [extra_row hx'] at he
    exact slot_inj horder hx hx' (by omega)
  · intro i hi hd hf
    rw [directCombine, if_neg (by omega), gemms, scatter_of_not_mem _ hf, scatter_of_not_mem _ hd]

omit horder

/-- Two tokens with two choices, all local, and a scratch of two rows. -/
def smallCombine : DirectArgs where
  m := 2
  topk := 2
  topkIds t k := t + k
  expertMap e := e
  sortedIds p := routeWord (p / 2) (p % 2)
  nvalid := 4
  bound := 4
  cap := 2
  xoff := 2
  cache3 r := r + 2

theorem smallCombine_fits : smallCombine.Fits where
  tokens := by decide
  topk_le := by decide
  nvalid_le := by decide
  sound := by decide
  complete := by decide
  once := by decide
  xoff_eq := ⟨2, 4, by decide⟩
  cache_out := by decide
  cache_inj := by decide

/-- Sums of integers: the rows of the two choices of token one. -/
theorem direct_combine_masked_sum_small :
    smallCombine.directCombine [0] ⟨id, id, 0, (· + ·)⟩ (fun p => (p : Int)) (fun _ => 7) 1 = 5 :=
  (@direct_combine_masked_sum Int Int smallCombine smallCombine_fits [0] (by decide) ⟨id, id, 0, (· + ·)⟩
    (fun r => Int.zero_add r) (fun p => (p : Int)) (fun _ => 7)).out (fun t k => ((2 * t + k : Nat) : Int)) (by
      intro p hok
      have hp := (ok_iff.mp hok).2.1
      have hrow : ∀ p < 4, 2 * smallCombine.tok p + (smallCombine.choice p).toNat = p := by decide
      exact congrArg Nat.cast (hrow p hp)) 1 (by decide)

end DirectArgs

end VllmHcu.EpMoe
