import Mathlib.Algebra.BigOperators.Group.Finset.Basic
import Mathlib.Algebra.GroupWithZero.Nat
import Mathlib.Algebra.Order.BigOperators.Group.Finset
import Mathlib.Algebra.Ring.Nat
import Mathlib.Data.Fintype.Basic
import Mathlib.Data.Fintype.EquivFin
import Mathlib.Data.Fintype.Lattice
import Mathlib.Logic.Relation
import Mathlib.Order.CompletePartialOrder

/-!
# Ranks that meet in collectives

Every rank has a program, a list of collectives. `peers o r q` says that the
ranks `r` and `q` share the collective `o`. A collective takes place when all who
share it have come to it, in any order of the groups.
-/

namespace VllmHcu

section
variable {R O : Type} (peers : O → R → R → Prop) (prog : R → List O)

/-- One group of ranks leaves a collective. -/
inductive MeetStep (s : R → Nat) : (R → Nat) → Prop
  | meet (r : R) (o : O) (t : R → Nat) : (∀ q, peers o r q → (prog q)[s q]? = some o) →
      (∀ q, peers o r q → t q = s q + 1) → (∀ q, ¬ peers o r q → t q = s q) → MeetStep s t

/-- The ranks that share one of the first collectives have left it together. -/
def Meets (pre : List O) (s : R → Nat) : Prop :=
  ∀ (o : O) (k : Nat), pre[k]? = some o → ∀ r q, peers o r q → (k < s r ↔ k < s q)

def AllDone (s : R → Nat) : Prop := ∀ r, s r = (prog r).length

variable {peers prog}

theorem getElem?_of_isPrefix {p l : List O} (h : p <+: l) {k : Nat} {o : O} (hk : p[k]? = some o) : l[k]? = some o := by
  obtain ⟨rest, rfl⟩ := h
  have := (List.getElem?_eq_some_iff.mp hk).1
  rw [List.getElem?_append_left this, hk]

theorem Meets.step (hpeers : ∀ o, Equivalence (peers o)) {pre : List O} (hpre : ∀ r, pre <+: prog r)
    {s t : R → Nat} (h : Meets peers pre s) (hst : MeetStep peers prog s t) : Meets peers pre t := by
  obtain ⟨r, o, _, hat, hin, hout⟩ := hst
  -- a rank of the group that is at place `k` takes the others along
  have hmove : ∀ o' k, pre[k]? = some o' → ∀ x y, peers o' x y → k < t x → k < t y := by
    intro o' k hk x y hxy hx
    by_cases hrx : peers o r x
    · have hsx := hat x hrx
      rw [hin x hrx] at hx
      by_cases hlt : k < s x
      · have hy : k < s y := (h o' k hk x y hxy).mp hlt
        by_cases hry : peers o r y
        · rw [hin y hry]
          exact Nat.lt_succ_of_lt hy
        · rwa [hout y hry]
      · have hkx : s x = k := by omega
        have ho : o = o' := by
          rw [hkx, getElem?_of_isPrefix (hpre x) hk] at hsx
          exact (Option.some.inj hsx).symm
        subst ho
        have hry := (hpeers o).trans hrx hxy
        rw [hin y hry]
        -- it cannot lag behind at an earlier meeting of the same group
        have hle : s y ≤ k := Nat.le_of_not_lt fun hy => hlt ((h o k hk x y hxy).mpr hy)
        have hsy := hat y hry
        by_cases hyk : s y = k
        · simp [hyk]
        · have hpy : pre[s y]? = some o := by
            have hlt' : s y < pre.length := by
              have := (List.getElem?_eq_some_iff.mp hk).1
              omega
            obtain ⟨rest, hrest⟩ := hpre y
            rwa [← hrest, List.getElem?_append_left hlt'] at hsy
          have hxk := (h o (s y) hpy x y hxy).mp (by omega)
          exact absurd hxk (Nat.lt_irrefl _)
    · rw [hout x hrx] at hx
      have hy := (h o' k hk x y hxy).mp hx
      by_cases hry : peers o r y
      · rw [hin y hry]
        exact Nat.lt_succ_of_lt hy
      · rwa [hout y hry]
  intro o' k hk x y hxy
  exact ⟨hmove o' k hk x y hxy, hmove o' k hk y x ((hpeers o').symm hxy)⟩

/-- The states of the interleavings, from the start on. -/
def Met (peers : O → R → R → Prop) (prog : R → List O) : (R → Nat) → Prop :=
  Relation.ReflTransGen (MeetStep peers prog) fun _ => 0

theorem Met.meets (hpeers : ∀ o, Equivalence (peers o)) {pre : List O} (hpre : ∀ r, pre <+: prog r)
    {s : R → Nat} (h : Met peers prog s) : Meets peers pre s := by
  unfold Met at h
  induction h with
  | refl => intro o k _ r q _; simp
  | tail _ hst ih => exact ih.step hpeers hpre hst

theorem MeetStep.le_length {s t : R → Nat} (hst : MeetStep peers prog s t)
    (h : ∀ r, s r ≤ (prog r).length) (r : R) : t r ≤ (prog r).length := by
  obtain ⟨x, o, _, hat, hin, hout⟩ := hst
  by_cases hr : peers o x r
  · rw [hin r hr]
    exact (List.getElem?_eq_some_iff.mp (hat r hr)).1
  · rw [hout r hr]
    exact h r

theorem Met.le_length {s : R → Nat} (h : Met peers prog s) :
    ∀ r, s r ≤ (prog r).length := by
  unfold Met at h
  induction h with
  | refl => simp
  | tail _ hst ih => exact hst.le_length ih

/-- With one program for all ranks, the rank that is last can go on. -/
theorem Met.progress [Finite R] (hpeers : ∀ o, Equivalence (peers o)) {p : List O} (hprog : ∀ r, prog r = p)
    {s : R → Nat} (h : Met peers prog s) : AllDone prog s ∨ ∃ t, MeetStep peers prog s t := by
  have hle := h.le_length
  have hmeets : Meets peers p s := h.meets hpeers fun r => by rw [hprog r]
  by_cases hne : Nonempty R
  · obtain ⟨r, hr⟩ := Finite.exists_min s
    by_cases hlt : s r < p.length
    · right
      have ho : p[s r]? = some p[s r] := List.getElem?_eq_getElem hlt
      refine ⟨fun q => by classical exact if peers p[s r] r q then s q + 1 else s q, .meet r p[s r] _ ?_ ?_ ?_⟩
      · intro q hq
        have hqr : s q = s r := by
          have := (hmeets _ _ ho r q hq).mpr
          have := hr q
          omega
        rw [hprog q, hqr, ho]
      · intro q hq
        simp [hq]
      · intro q hq
        simp [hq]
    · left
      intro q
      have := hr q
      have := hle q
      rw [hprog q] at this ⊢
      omega
  · left
    intro q
    exact absurd ⟨q⟩ hne

theorem MeetStep.sum_lt [Fintype R] (hpeers : ∀ o, Equivalence (peers o)) {s t : R → Nat} (hst : MeetStep peers prog s t) :
    ∑ r, s r < ∑ r, t r := by
  obtain ⟨x, o, _, _, hin, hout⟩ := hst
  apply Finset.sum_lt_sum
  · intro r _
    by_cases hr : peers o x r
    · simp [hin r hr]
    · simp [hout r hr]
  · exact ⟨x, Finset.mem_univ x, by simp [hin x ((hpeers o).refl x)]⟩

/-- With one program for all ranks, they get to its end from wherever they are. -/
theorem Met.reaches_end [Fintype R] (hpeers : ∀ o, Equivalence (peers o)) {p : List O} (hprog : ∀ r, prog r = p)
    {s : R → Nat} (h : Met peers prog s) :
    ∃ t, Relation.ReflTransGen (MeetStep peers prog) s t ∧ AllDone prog t := by
  generalize hn : ∑ r, (prog r).length - ∑ r, s r = n
  induction n using Nat.strong_induction_on generalizing s with
  | _ n ih =>
    obtain hdone | ⟨t, hst⟩ := h.progress hpeers hprog
    · exact ⟨s, .refl, hdone⟩
    · have hmet : Met peers prog t := Relation.ReflTransGen.tail h hst
      have hlt := hst.sum_lt hpeers
      have hle : ∑ r, t r ≤ ∑ r, (prog r).length := Finset.sum_le_sum fun r _ => hmet.le_length r
      obtain ⟨u, hu, hdone⟩ := ih _ (by omega) hmet rfl
      exact ⟨u, .head hst hu, hdone⟩

/-- Where every rank next waits for one that has come to another collective, no rank goes on. -/
theorem Met.stuck (hpeers : ∀ o, Equivalence (peers o)) {pre : List O} (hpre : ∀ r, pre <+: prog r)
    (hwait : ∀ r o, (prog r)[pre.length]? = some o → ∃ q, peers o r q ∧ (prog q)[pre.length]? ≠ some o)
    {s : R → Nat} (h : Met peers prog s) : ∀ r, s r ≤ pre.length := by
  have hmeets : ∀ {s}, Met peers prog s → Meets peers pre s := fun h => h.meets hpeers hpre
  unfold Met at h
  induction h with
  | refl => simp
  | @tail s t hs hst ih =>
    intro x
    obtain ⟨r, o, _, hat, hin, hout⟩ := hst
    by_cases hx : peers o r x
    · rw [hin x hx]
      by_cases hlt : s x < pre.length
      · exact hlt
      · have hxe : s x = pre.length := Nat.le_antisymm (ih x) (Nat.le_of_not_lt hlt)
        have hxo := hat x hx
        rw [hxe] at hxo
        obtain ⟨q, hq, hne⟩ := hwait x o hxo
        have hqo := hat q ((hpeers o).trans hx hq)
        have hqlt : s q < pre.length := Nat.lt_of_le_of_ne (ih q) fun he => hne (he ▸ hqo)
        have hpq : pre[s q]? = some o := by
          obtain ⟨rest, hrest⟩ := hpre q
          rwa [← hrest, List.getElem?_append_left hqlt] at hqo
        have := (hmeets hs o (s q) hpq x q hq).mp (hxe ▸ hqlt)
        exact absurd this (Nat.lt_irrefl _)
    · rw [hout x hx]
      exact ih x

end

end VllmHcu
