import Mathlib.Algebra.Order.Ring.Int
import Mathlib.Tactic.Common
import Mathlib.Tactic.Ring

/-!
# Buddy partitions

A range of addresses is partitioned into blocks whose sizes are a unit times a
power of two, each at an offset that is a multiple of its size. Blocks are free,
in use or held back by an operation that is under way, and no free block has a
free buddy.
-/

namespace VllmHcu

structure Block where
  size : Nat
  addr : Int
deriving DecidableEq

namespace Block

inductive Kind
  | free
  | used
  | held
deriving DecidableEq

def Covers (b : Block) (a : Int) : Prop := b.addr ≤ a ∧ a < b.addr + b.size

def Apart (b c : Block) : Prop := b.addr + b.size ≤ c.addr ∨ c.addr + c.size ≤ b.addr

/-- The other half of the block of twice the size. -/
def buddy (base : Int) (b : Block) : Block :=
  ⟨b.size, if (b.addr - base) % (2 * b.size) = 0 then b.addr + b.size else b.addr - b.size⟩

theorem apart_of_disjoint {b c : Block} (hb : 0 < b.size) (hc : 0 < c.size) (h : ∀ a, b.Covers a → ¬ c.Covers a) :
    b.Apart c := by
  by_contra hn
  unfold Apart at hn
  by_cases hle : b.addr ≤ c.addr
  · exact h c.addr ⟨hle, by omega⟩ ⟨by omega, by omega⟩
  · exact h b.addr ⟨by omega, by omega⟩ ⟨by omega, by omega⟩

theorem Apart.not_covers {b c : Block} (h : b.Apart c) {a : Int} (hb : b.Covers a) : ¬ c.Covers a := by
  unfold Apart Covers at *
  omega

theorem nested {base : Int} {b c : Block} (hdvd : b.size ∣ c.size) (hb : (b.size : Int) ∣ b.addr - base)
    (hc : (c.size : Int) ∣ c.addr - base) {a : Int} (hab : b.Covers a) (hac : c.Covers a) :
    c.addr ≤ b.addr ∧ b.addr + b.size ≤ c.addr + c.size := by
  obtain ⟨m, hm⟩ := hdvd
  obtain ⟨p, hp⟩ := hb
  obtain ⟨q, hq⟩ := hc
  have hsize : (c.size : Int) = b.size * m := by exact_mod_cast hm
  unfold Covers at *
  have hpos : (0 : Int) < b.size := by omega
  have hb' : b.addr = base + b.size * p := by omega
  have hc' : c.addr = base + b.size * (m * q) := by
    rw [← mul_assoc, ← hsize]
    omega
  have hlow : m * q ≤ p := by
    by_contra hlt
    have := mul_le_mul_of_nonneg_left (show p + 1 ≤ m * q by omega) hpos.le
    rw [mul_add] at this
    omega
  have hhigh : p + 1 ≤ m * q + m := by
    by_contra hlt
    have := mul_le_mul_of_nonneg_left (show m * q + m ≤ p by omega) hpos.le
    rw [mul_add, ← hsize] at this
    omega
  have h₁ := mul_le_mul_of_nonneg_left hlow hpos.le
  have h₂ := mul_le_mul_of_nonneg_left hhigh hpos.le
  rw [mul_add, mul_add, ← hsize] at h₂
  omega

theorem buddy_of_even {base : Int} {b : Block} (h : ((2 * b.size : Nat) : Int) ∣ b.addr - base) :
    b.buddy base = ⟨b.size, b.addr + b.size⟩ := by
  have : (b.addr - base) % (2 * b.size) = 0 := Int.emod_eq_zero_of_dvd (by exact_mod_cast h)
  rw [buddy, if_pos this]

theorem buddy_of_odd {base : Int} {b : Block} (hpos : 0 < b.size)
    (h : ((2 * b.size : Nat) : Int) ∣ b.addr - b.size - base) : b.buddy base = ⟨b.size, b.addr - b.size⟩ := by
  have hne : ¬ (b.addr - base) % (2 * b.size) = 0 := by
    intro h0
    have h' := Int.dvd_of_emod_eq_zero h0
    have hdiff := Int.dvd_sub h' (by exact_mod_cast h)
    have hle := Int.le_of_dvd (by omega) hdiff
    omega
  rw [buddy, if_neg hne]

/-- A block is the lower or the upper half of the block of twice its size. -/
theorem half_cases {base : Int} {b : Block} (hb : (b.size : Int) ∣ b.addr - base) :
    ((2 * b.size : Nat) : Int) ∣ b.addr - base ∨ ((2 * b.size : Nat) : Int) ∣ b.addr - b.size - base := by
  obtain ⟨q, hq⟩ := hb
  rcases Int.even_or_odd' q with ⟨m, h | h⟩
  · refine .inl ⟨m, ?_⟩
    rw [hq, h]
    push_cast
    ring
  · refine .inr ⟨m, ?_⟩
    have : b.addr - b.size - base = (b.addr - base) - b.size := by ring
    rw [this, hq, h]
    push_cast
    ring

theorem buddy_buddy {base : Int} {b : Block} (hpos : 0 < b.size) (hb : (b.size : Int) ∣ b.addr - base) :
    (b.buddy base).buddy base = b := by
  rcases half_cases hb with h | h
  · rw [buddy_of_even h, buddy_of_odd (b := ⟨b.size, b.addr + b.size⟩) hpos (by simpa using h)]
    simp
  · rw [buddy_of_odd hpos h, buddy_of_even (b := ⟨b.size, b.addr - b.size⟩) h]
    simp

theorem buddy_ne {base : Int} {b : Block} (hpos : 0 < b.size) : b.buddy base ≠ b := by
  intro h
  have haddr := congrArg Block.addr h
  unfold buddy at haddr
  dsimp only at haddr
  split at haddr
  · omega
  · omega

theorem buddy_addr (base : Int) (b : Block) :
    (b.buddy base).addr = b.addr + b.size ∨ (b.buddy base).addr = b.addr - b.size := by
  unfold buddy
  dsimp only
  split
  · exact .inl rfl
  · exact .inr rfl

theorem buddy_aligned {base : Int} {b : Block} (hb : (b.size : Int) ∣ b.addr - base) :
    (b.size : Int) ∣ (b.buddy base).addr - base := by
  rcases buddy_addr base b with h | h
  · rw [h]
    have : b.addr + b.size - base = (b.addr - base) + b.size := by ring
    rw [this]
    exact Int.dvd_add hb (Int.dvd_refl _)
  · rw [h]
    have : b.addr - b.size - base = (b.addr - base) - b.size := by ring
    rw [this]
    exact Int.dvd_sub hb (Int.dvd_refl _)

/-- The block of twice the size. -/
def parent (base : Int) (b : Block) : Block := ⟨2 * b.size, min b.addr (b.buddy base).addr⟩

theorem parent_aligned {base : Int} {b : Block} (hpos : 0 < b.size) (hb : (b.size : Int) ∣ b.addr - base) :
    ((b.parent base).size : Int) ∣ (b.parent base).addr - base := by
  unfold parent
  rcases half_cases hb with h | h
  · rw [buddy_of_even h]
    dsimp only
    rw [min_eq_left (by omega)]
    exact h
  · rw [buddy_of_odd hpos h]
    dsimp only
    rw [min_eq_right (by omega)]
    exact h

theorem parent_covers {base : Int} {b : Block} {a : Int} :
    (b.parent base).Covers a ↔ b.Covers a ∨ (b.buddy base).Covers a := by
  have hsize : (b.buddy base).size = b.size := rfl
  have := buddy_addr base b
  unfold Covers parent
  rw [hsize]
  dsimp only
  push_cast
  omega

end Block

open Block

/-- The blocks `Has` partition the range of `unit * 2 ^ height` addresses from `base`. -/
structure BuddyPartition (base : Int) (unit height : Nat) (Has : Kind → Block → Prop) : Prop where
  unit_pos : 0 < unit
  size : ∀ {k b}, Has k b → ∃ j, b.size = unit * 2 ^ j
  aligned : ∀ {k b}, Has k b → (b.size : Int) ∣ b.addr - base
  inside : ∀ {k b}, Has k b → base ≤ b.addr ∧ b.addr + b.size ≤ base + (unit * 2 ^ height : Nat)
  apart : ∀ {k b k' c}, Has k b → Has k' c → (k = k' ∧ b = c) ∨ b.Apart c
  cover : ∀ a, base ≤ a → a < base + (unit * 2 ^ height : Nat) → ∃ k b, Has k b ∧ b.Covers a
  buddies : ∀ {b}, Has .free b → ¬ Has .free (b.buddy base)

namespace BuddyPartition

section
variable {base : Int} {unit height : Nat} {Has Has' : Kind → Block → Prop}

theorem size_pos (h : BuddyPartition base unit height Has) {k : Kind} {b : Block} (hb : Has k b) : 0 < b.size := by
  obtain ⟨j, hj⟩ := h.size hb
  rw [hj]
  exact Nat.mul_pos h.unit_pos (Nat.two_pow_pos j)

theorem single (hunit : 0 < unit) (hHas : ∀ k b, Has k b ↔ k = .free ∧ b = ⟨unit * 2 ^ height, base⟩) :
    BuddyPartition base unit height Has := by
  have hpos : 0 < unit * 2 ^ height := Nat.mul_pos hunit (Nat.two_pow_pos height)
  refine ⟨hunit, ?_, ?_, ?_, ?_, ?_, ?_⟩
  · intro k b hb
    obtain ⟨-, rfl⟩ := (hHas k b).mp hb
    exact ⟨height, rfl⟩
  · intro k b hb
    obtain ⟨-, rfl⟩ := (hHas k b).mp hb
    simp
  · intro k b hb
    obtain ⟨-, rfl⟩ := (hHas k b).mp hb
    exact ⟨le_refl _, le_refl _⟩
  · intro k b k' c hb hc
    obtain ⟨rfl, rfl⟩ := (hHas k b).mp hb
    obtain ⟨rfl, rfl⟩ := (hHas k' c).mp hc
    exact .inl ⟨rfl, rfl⟩
  · intro a hlo hhi
    exact ⟨.free, _, (hHas _ _).mpr ⟨rfl, rfl⟩, hlo, hhi⟩
  · intro b hb hc
    obtain ⟨-, rfl⟩ := (hHas _ _).mp hb
    exact buddy_ne hpos ((hHas _ _).mp hc).2

/-- Some blocks are replaced by others that cover the same addresses. -/
theorem replace (h : BuddyPartition base unit height Has) (old new : Kind → Block → Prop)
    (hHas : ∀ k b, Has' k b ↔ (Has k b ∧ ¬ old k b) ∨ new k b) (hold : ∀ {k b}, old k b → Has k b)
    (hsize : ∀ {k b}, new k b → ∃ j, b.size = unit * 2 ^ j)
    (haligned : ∀ {k b}, new k b → (b.size : Int) ∣ b.addr - base)
    (hinside : ∀ {k b}, new k b → base ≤ b.addr ∧ b.addr + b.size ≤ base + (unit * 2 ^ height : Nat))
    (hapart : ∀ {k b k' c}, new k b → new k' c → (k = k' ∧ b = c) ∨ b.Apart c)
    (hfrom : ∀ {k b}, new k b → ∀ a, b.Covers a → ∃ k' c, old k' c ∧ c.Covers a)
    (hto : ∀ {k b}, old k b → ∀ a, b.Covers a → ∃ k' c, new k' c ∧ c.Covers a)
    (hbuddies : ∀ {b}, Has' .free b → ¬ Has' .free (b.buddy base)) : BuddyPartition base unit height Has' := by
  have hmixed : ∀ {k b k' c}, Has k b → ¬ old k b → new k' c → b.Apart c := by
    intro k b k' c hb hn hc
    obtain ⟨j, hj⟩ := hsize hc
    have hpos : 0 < c.size := by
      rw [hj]
      exact Nat.mul_pos h.unit_pos (Nat.two_pow_pos j)
    refine apart_of_disjoint (h.size_pos hb) hpos fun a hab hac => ?_
    obtain ⟨k'', d, hd, had⟩ := hfrom hc a hac
    rcases h.apart hb (hold hd) with ⟨rfl, rfl⟩ | hap
    · exact hn hd
    · exact hap.not_covers hab had
  refine ⟨h.unit_pos, ?_, ?_, ?_, ?_, ?_, hbuddies⟩
  · intro k b hb
    rcases (hHas k b).mp hb with ⟨hb, -⟩ | hb
    · exact h.size hb
    · exact hsize hb
  · intro k b hb
    rcases (hHas k b).mp hb with ⟨hb, -⟩ | hb
    · exact h.aligned hb
    · exact haligned hb
  · intro k b hb
    rcases (hHas k b).mp hb with ⟨hb, -⟩ | hb
    · exact h.inside hb
    · exact hinside hb
  · intro k b k' c hb hc
    rcases (hHas k b).mp hb with ⟨hb, hnb⟩ | hb
    · rcases (hHas k' c).mp hc with ⟨hc, -⟩ | hc
      · exact h.apart hb hc
      · exact .inr (hmixed hb hnb hc)
    · rcases (hHas k' c).mp hc with ⟨hc, hnc⟩ | hc
      · exact .inr (Or.symm (hmixed hc hnc hb))
      · exact hapart hb hc
  · intro a hlo hhi
    obtain ⟨k, b, hb, hab⟩ := h.cover a hlo hhi
    by_cases hob : old k b
    · obtain ⟨k', c, hc, hac⟩ := hto hob a hab
      exact ⟨k', c, (hHas k' c).mpr (.inr hc), hac⟩
    · exact ⟨k, b, (hHas k b).mpr (.inl ⟨hb, hob⟩), hab⟩

theorem move (h : BuddyPartition base unit height Has) (k k' : Kind) {b : Block} (hb : Has k b)
    (hfree : k' = .free → ¬ Has .free (b.buddy base))
    (hHas : ∀ κ x, Has' κ x ↔ (Has κ x ∧ ¬ (κ = k ∧ x = b)) ∨ (κ = k' ∧ x = b)) :
    BuddyPartition base unit height Has' := by
  refine h.replace (fun κ x => κ = k ∧ x = b) (fun κ x => κ = k' ∧ x = b) hHas ?_ ?_ ?_ ?_ ?_ ?_ ?_ ?_
  · rintro _ _ ⟨rfl, rfl⟩
    exact hb
  · rintro _ _ ⟨-, rfl⟩
    exact h.size hb
  · rintro _ _ ⟨-, rfl⟩
    exact h.aligned hb
  · rintro _ _ ⟨-, rfl⟩
    exact h.inside hb
  · rintro _ _ _ _ ⟨rfl, rfl⟩ ⟨rfl, rfl⟩
    exact .inl ⟨rfl, rfl⟩
  · rintro _ _ ⟨-, rfl⟩ a ha
    exact ⟨k, _, ⟨rfl, rfl⟩, ha⟩
  · rintro _ _ ⟨-, rfl⟩ a ha
    exact ⟨k', _, ⟨rfl, rfl⟩, ha⟩
  · intro x hx hy
    rcases (hHas _ _).mp hx with ⟨hx, -⟩ | ⟨hk, rfl⟩
    · rcases (hHas _ _).mp hy with ⟨hy, -⟩ | ⟨hk, hy⟩
      · exact h.buddies hx hy
      · rw [← hy, buddy_buddy (h.size_pos hx) (h.aligned hx)] at hfree
        exact hfree hk.symm hx
    · rcases (hHas _ _).mp hy with ⟨hy, -⟩ | ⟨-, hy⟩
      · exact hfree hk.symm hy
      · exact buddy_ne (h.size_pos hb) hy

theorem split (h : BuddyPartition base unit height Has) {b : Block} {s : Nat} (hb : Has .held b) (hs : b.size = 2 * s)
    (hsize : ∃ j, s = unit * 2 ^ j)
    (hHas : ∀ κ x, Has' κ x ↔ (Has κ x ∧ ¬ (κ = .held ∧ x = b)) ∨
      ((κ = .held ∧ x = ⟨s, b.addr⟩) ∨ (κ = .free ∧ x = ⟨s, b.addr + s⟩))) : BuddyPartition base unit height Has' := by
  have haligned := h.aligned hb
  have hinside := h.inside hb
  have hpos := h.size_pos hb
  rw [hs] at haligned hinside hpos
  push_cast at haligned
  have hlow : (s : Int) ∣ b.addr - base := Dvd.dvd.trans (Dvd.intro_left 2 rfl) haligned
  have hhigh : (s : Int) ∣ b.addr + s - base := by
    have : b.addr + s - base = (b.addr - base) + s := by ring
    rw [this]
    exact Int.dvd_add hlow (Int.dvd_refl _)
  have hupper : Block.buddy base ⟨s, b.addr + s⟩ = ⟨s, b.addr⟩ := by
    rw [buddy_of_odd (by dsimp only; omega) (by dsimp only; push_cast; simpa using haligned)]
    simp
  -- the lower half is within the held block
  have hlower : ¬ Has .free ⟨s, b.addr⟩ := by
    intro hf
    rcases h.apart hb hf with ⟨hk, -⟩ | hap
    · cases hk
    · unfold Apart at hap
      dsimp only at hap
      omega
  refine h.replace (fun κ x => κ = .held ∧ x = b)
    (fun κ x => (κ = .held ∧ x = ⟨s, b.addr⟩) ∨ (κ = .free ∧ x = ⟨s, b.addr + s⟩)) hHas ?_ ?_ ?_ ?_ ?_ ?_ ?_ ?_
  · rintro _ _ ⟨rfl, rfl⟩
    exact hb
  · rintro _ _ (⟨-, rfl⟩ | ⟨-, rfl⟩)
    · exact hsize
    · exact hsize
  · rintro _ _ (⟨-, rfl⟩ | ⟨-, rfl⟩)
    · exact hlow
    · exact hhigh
  · rintro _ _ (⟨-, rfl⟩ | ⟨-, rfl⟩)
    · dsimp only
      omega
    · dsimp only
      omega
  · rintro _ _ _ _ (⟨rfl, rfl⟩ | ⟨rfl, rfl⟩) (⟨rfl, rfl⟩ | ⟨rfl, rfl⟩)
    · exact .inl ⟨rfl, rfl⟩
    · exact .inr (.inl (le_refl _))
    · exact .inr (.inr (le_refl _))
    · exact .inl ⟨rfl, rfl⟩
  · rintro _ _ (⟨-, rfl⟩ | ⟨-, rfl⟩) a ⟨hlo, hhi⟩
    · refine ⟨.held, b, ⟨rfl, rfl⟩, ?_⟩
      unfold Covers
      dsimp only at *
      omega
    · refine ⟨.held, b, ⟨rfl, rfl⟩, ?_⟩
      unfold Covers
      dsimp only at *
      omega
  · rintro _ x ⟨-, hx⟩ a ⟨hlo, hhi⟩
    rw [hx] at hlo hhi
    by_cases ha : a < b.addr + s
    · exact ⟨.held, _, .inl ⟨rfl, rfl⟩, hlo, ha⟩
    · refine ⟨.free, _, .inr ⟨rfl, rfl⟩, ?_⟩
      unfold Covers
      dsimp only
      omega
  · intro x hx hy
    rcases (hHas _ _).mp hx with ⟨hx, -⟩ | ⟨hk, -⟩ | ⟨-, rfl⟩
    · rcases (hHas _ _).mp hy with ⟨hy, -⟩ | ⟨hk, -⟩ | ⟨-, hy⟩
      · exact h.buddies hx hy
      · cases hk
      · have hxb := buddy_buddy (h.size_pos hx) (h.aligned hx)
        rw [hy, hupper] at hxb
        exact hlower (hxb ▸ hx)
    · cases hk
    · rw [hupper] at hy
      rcases (hHas _ _).mp hy with ⟨hy, -⟩ | ⟨hk, -⟩ | ⟨-, hy⟩
      · exact hlower hy
      · cases hk
      · have := congrArg Block.addr hy
        dsimp only at this
        omega

theorem merge (h : BuddyPartition base unit height Has) {b : Block} (hb : Has .held b) (hd : Has .free (b.buddy base))
    (hHas : ∀ κ x, Has' κ x ↔ (Has κ x ∧ ¬ ((κ = .held ∧ x = b) ∨ (κ = .free ∧ x = b.buddy base))) ∨
      (κ = .held ∧ x = b.parent base)) : BuddyPartition base unit height Has' := by
  refine h.replace (fun κ x => (κ = .held ∧ x = b) ∨ (κ = .free ∧ x = b.buddy base))
    (fun κ x => κ = .held ∧ x = b.parent base) hHas ?_ ?_ ?_ ?_ ?_ ?_ ?_ ?_
  · rintro _ _ (⟨rfl, rfl⟩ | ⟨rfl, rfl⟩)
    · exact hb
    · exact hd
  · rintro _ _ ⟨-, rfl⟩
    obtain ⟨j, hj⟩ := h.size hb
    refine ⟨j + 1, ?_⟩
    unfold parent
    dsimp only
    rw [hj, pow_succ]
    ring
  · rintro _ _ ⟨-, rfl⟩
    exact parent_aligned (h.size_pos hb) (h.aligned hb)
  · rintro _ _ ⟨-, rfl⟩
    have hbi := h.inside hb
    have hdi := h.inside hd
    have hsize : (b.buddy base).size = b.size := rfl
    have := buddy_addr base b
    unfold parent
    dsimp only
    omega
  · rintro _ _ _ _ ⟨rfl, rfl⟩ ⟨rfl, rfl⟩
    exact .inl ⟨rfl, rfl⟩
  · rintro _ _ ⟨-, rfl⟩ a ha
    rcases parent_covers.mp ha with ha | ha
    · exact ⟨.held, b, .inl ⟨rfl, rfl⟩, ha⟩
    · exact ⟨.free, _, .inr ⟨rfl, rfl⟩, ha⟩
  · rintro _ _ (⟨-, rfl⟩ | ⟨-, rfl⟩) a ha
    · exact ⟨.held, _, ⟨rfl, rfl⟩, parent_covers.mpr (.inl ha)⟩
    · exact ⟨.held, _, ⟨rfl, rfl⟩, parent_covers.mpr (.inr ha)⟩
  · intro x hx hy
    rcases (hHas _ _).mp hx with ⟨hx, -⟩ | ⟨hk, -⟩
    · rcases (hHas _ _).mp hy with ⟨hy, -⟩ | ⟨hk, -⟩
      · exact h.buddies hx hy
      · cases hk
    · cases hk

theorem eq_of_top (h : BuddyPartition base unit height Has) {k k' : Kind} {b c : Block} (hb : Has k b)
    (htop : b.size = unit * 2 ^ height) (hc : Has k' c) : b.addr = base ∧ k' = k ∧ c = b := by
  have hbi := h.inside hb
  have hci := h.inside hc
  have hpos := h.size_pos hc
  rw [htop] at hbi
  refine ⟨by omega, ?_⟩
  rcases h.apart hb hc with ⟨rfl, rfl⟩ | hap
  · exact ⟨rfl, rfl⟩
  · unfold Apart at hap
    rw [htop] at hap
    omega

theorem size_lt {i j : Nat} (h : unit * 2 ^ i < unit * 2 ^ j) : i < j :=
  (Nat.pow_lt_pow_iff_right (by decide)).mp (Nat.lt_of_mul_lt_mul_left h)

theorem buddy_inside (h : BuddyPartition base unit height Has) {k : Kind} {b : Block} (hb : Has k b)
    (hlt : b.size < unit * 2 ^ height) :
    base ≤ (b.buddy base).addr ∧ (b.buddy base).addr + b.size ≤ base + (unit * 2 ^ height : Nat) := by
  obtain ⟨j, hj⟩ := h.size hb
  have hj' : j < height := size_lt (hj ▸ hlt)
  have hbi := h.inside hb
  have hpos := h.size_pos hb
  -- the range is a whole number of blocks of twice the size
  obtain ⟨m, hm⟩ : ∃ m : Nat, unit * 2 ^ height = 2 * b.size * m := by
    refine ⟨2 ^ (height - (j + 1)), ?_⟩
    rw [hj]
    calc unit * 2 ^ height = unit * 2 ^ (j + 1 + (height - (j + 1))) := by congr 2; omega
      _ = 2 * (unit * 2 ^ j) * 2 ^ (height - (j + 1)) := by rw [pow_add, pow_succ]; ring
  rcases half_cases (h.aligned hb) with hhalf | hhalf
  · rw [buddy_of_even hhalf]
    dsimp only
    have htop : ((2 * b.size : Nat) : Int) ∣ base + (unit * 2 ^ height : Nat) - b.addr := by
      have hsub : base + (unit * 2 ^ height : Nat) - b.addr = (unit * 2 ^ height : Nat) - (b.addr - base) := by ring
      rw [hsub]
      refine Int.dvd_sub ⟨m, ?_⟩ hhalf
      rw [hm]
      push_cast
      ring
    have := Int.le_of_dvd (by omega) htop
    omega
  · rw [buddy_of_odd hpos hhalf]
    dsimp only
    have : (0 : Int) ≤ b.addr - b.size - base := by
      obtain ⟨q, hq⟩ := hhalf
      by_contra hneg
      have hq' : q ≤ -1 := by
        by_contra hq'
        have := mul_nonneg (show (0 : Int) ≤ (2 * b.size : Nat) by omega) (show 0 ≤ q by omega)
        omega
      have := mul_le_mul_of_nonneg_left hq' (show (0 : Int) ≤ (2 * b.size : Nat) by omega)
      omega
    omega

theorem eq_top_of_free (h : BuddyPartition base unit height Has) (hfree : ∀ k b, Has k b → k = .free) :
    ∀ k b, Has k b ↔ k = .free ∧ b = ⟨unit * 2 ^ height, base⟩ := by
  have htop : 0 < unit * 2 ^ height := Nat.mul_pos h.unit_pos (Nat.two_pow_pos height)
  have hex : ∃ n b, Has .free b ∧ b.size = n := by
    obtain ⟨k, b, hb, -⟩ := h.cover base (le_refl _) (by omega)
    obtain rfl := hfree k b hb
    exact ⟨b.size, b, hb, rfl⟩
  classical
  -- the smallest block, and the one that covers its buddy
  obtain ⟨b, hb, hmin⟩ := Nat.find_spec hex
  have hsmall : ∀ k c, Has k c → b.size ≤ c.size := by
    intro k c hc
    obtain rfl := hfree k c hc
    rw [hmin]
    exact Nat.find_min' hex ⟨c, hc, rfl⟩
  have hfull : b.size = unit * 2 ^ height := by
    obtain ⟨i, hi⟩ := h.size hb
    have hbi := h.inside hb
    by_contra hne
    have hlt : b.size < unit * 2 ^ height := by omega
    have hin := h.buddy_inside hb hlt
    have hpos := h.size_pos hb
    obtain ⟨k, c, hc, hcov⟩ := h.cover (b.buddy base).addr hin.1 (by omega)
    obtain rfl := hfree k c hc
    obtain ⟨j, hj⟩ := h.size hc
    have hsizes := hsmall _ c hc
    have hij : i ≤ j := by
      by_contra hji
      have := Nat.mul_lt_mul_of_pos_left (Nat.pow_lt_pow_right (show 1 < 2 by decide) (show j < i by omega)) h.unit_pos
      omega
    have hself : (b.buddy base).Covers (b.buddy base).addr := ⟨le_refl _, by have : (b.buddy base).size = b.size := rfl; omega⟩
    rcases Nat.eq_or_lt_of_le hij with rfl | hij
    · -- of the same size: it is the buddy
      have hsame : c.size = b.size := hj.trans hi.symm
      have hnest := nested (b := b.buddy base) (by rw [hsame]; exact Nat.dvd_refl b.size) (buddy_aligned (h.aligned hb))
        (h.aligned hc) hself hcov
      have hsize : (b.buddy base).size = b.size := rfl
      have hcb : c = b.buddy base := by
        rcases c with ⟨cs, ca⟩
        dsimp only at hsame hnest
        have haddr : ca = (b.buddy base).addr := by omega
        rw [hsame, haddr]
        rfl
      exact h.buddies hb (hcb ▸ hc)
    · -- of at least twice the size: it covers the block too
      have hdvd : (b.parent base).size ∣ c.size := by
        refine ⟨2 ^ (j - (i + 1)), ?_⟩
        unfold parent
        dsimp only
        rw [hi, hj]
        calc unit * 2 ^ j = unit * 2 ^ (i + 1 + (j - (i + 1))) := by congr 2; omega
          _ = 2 * (unit * 2 ^ i) * 2 ^ (j - (i + 1)) := by rw [pow_add, pow_succ]; ring
      have hnest := nested hdvd (parent_aligned hpos (h.aligned hb)) (h.aligned hc) (parent_covers.mpr (.inr hself)) hcov
      have hbcov : b.Covers b.addr := ⟨le_refl _, by omega⟩
      have hpar : (b.parent base).Covers b.addr := parent_covers.mpr (.inl hbcov)
      have hccov : c.Covers b.addr := ⟨by unfold Covers at hpar; omega, by unfold Covers at hpar; omega⟩
      rcases h.apart hb hc with ⟨-, rfl⟩ | hap
      · have := Nat.mul_lt_mul_of_pos_left (Nat.pow_lt_pow_right (show 1 < 2 by decide) hij) h.unit_pos
        omega
      · exact hap.not_covers hbcov hccov
  intro k c
  constructor
  · intro hc
    obtain ⟨haddr, rfl, rfl⟩ := h.eq_of_top hb hfull hc
    refine ⟨rfl, ?_⟩
    rcases c with ⟨cs, ca⟩
    dsimp only at hfull haddr
    rw [hfull, haddr]
  · rintro ⟨rfl, rfl⟩
    have haddr := (h.eq_of_top hb hfull hb).1
    have : b = ⟨unit * 2 ^ height, base⟩ := by
      rcases b with ⟨bs, ba⟩
      dsimp only at hfull haddr
      rw [hfull, haddr]
    exact this ▸ hb

end

end BuddyPartition

end VllmHcu
