import Mathlib.Data.List.Basic
import Mathlib.Logic.Function.Basic
import VllmHcu.Lib.Run

/-!
# Straight-line programs over one memory

Programs of loads and stores run at once, each with registers of its own, in any
interleaving of their operations. Where no program writes what another touches,
each ends as if it ran alone.
-/

namespace VllmHcu

variable {κ ι α : Type} [DecidableEq κ] [DecidableEq ι]

inductive MemOp (ι α : Type)
  | load (r : Nat) (a : ι)
  | put (r : Nat) (v : α)
  | store (a : ι) (r : Nat)

namespace MemOp

def exec (s : (ι → α) × (Nat → α)) : MemOp ι α → (ι → α) × (Nat → α)
  | load r a => (s.1, Function.update s.2 r (s.1 a))
  | put r v => (s.1, Function.update s.2 r v)
  | store a r => (Function.update s.1 a (s.2 r), s.2)

def execAll (s : (ι → α) × (Nat → α)) (ops : List (MemOp ι α)) : (ι → α) × (Nat → α) := ops.foldl exec s

def Writes (a : ι) : MemOp ι α → Prop
  | store b _ => b = a
  | _ => False

def Touches (a : ι) : MemOp ι α → Prop
  | load _ b => b = a
  | store b _ => b = a
  | put _ _ => False

/-- The second operation does not read what the first has written. -/
def NotStale (x y : MemOp ι α) : Prop := ∀ r r' a, x = store a r → y ≠ load r' a

theorem exec_mem_of_not_writes {s : (ι → α) × (Nat → α)} {a : ι} {op : MemOp ι α} (h : ¬op.Writes a) :
    (exec s op).1 a = s.1 a := by
  cases op with
  | load r b => rfl
  | put r v => rfl
  | store b r => exact Function.update_of_ne (fun e => h e.symm) ..

theorem exec_congr {mem mem' : ι → α} (regs : Nat → α) {op : MemOp ι α} (h : ∀ a, op.Touches a → mem' a = mem a) :
    (exec (mem', regs) op).2 = (exec (mem, regs) op).2 ∧
    ∀ a, mem' a = mem a → (exec (mem', regs) op).1 a = (exec (mem, regs) op).1 a := by
  cases op with
  | load r b =>
    refine ⟨?_, fun _ ha => ha⟩
    simp only [exec, h b rfl]
  | put r v => exact ⟨rfl, fun _ ha => ha⟩
  | store b r =>
    refine ⟨rfl, fun a ha => ?_⟩
    simp only [exec]
    by_cases hab : a = b
    · subst hab
      simp
    · rw [Function.update_of_ne hab, Function.update_of_ne hab, ha]

@[simp] theorem execAll_nil (s : (ι → α) × (Nat → α)) : execAll s ([] : List (MemOp ι α)) = s := rfl

@[simp] theorem execAll_cons (s : (ι → α) × (Nat → α)) (op : MemOp ι α) (ops : List (MemOp ι α)) :
    execAll s (op :: ops) = execAll (exec s op) ops := rfl

theorem exec_store (s : (ι → α) × (Nat → α)) (a : ι) (r : Nat) :
    exec s (store a r) = (Function.update s.1 a (s.2 r), s.2) := rfl

theorem execAll_append (s : (ι → α) × (Nat → α)) (ops ops' : List (MemOp ι α)) :
    execAll s (ops ++ ops') = execAll (execAll s ops) ops' :=
  List.foldl_append

end MemOp

/-! ## Interleavings -/

structure Machine (κ ι α : Type) where
  mem : ι → α
  regs : κ → Nat → α
  todo : κ → List (MemOp ι α)
  history : List (κ × MemOp ι α) := []

namespace Machine

variable {m m' : Machine κ ι α} {p : κ}

/-- The next operation of the program. -/
def step (m : Machine κ ι α) (p : κ) : Option (Machine κ ι α) :=
  match m.todo p with
  | [] => none
  | op :: ops =>
    let s := op.exec (m.mem, m.regs p)
    some ⟨s.1, Function.update m.regs p s.2, Function.update m.todo p ops, m.history ++ [(p, op)]⟩

/-- The operations that the program has performed. -/
def performed (m : Machine κ ι α) (p : κ) : List (MemOp ι α) := (m.history.filter (·.1 = p)).map (·.2)

/-- No program writes what another touches. -/
def Separate (progs : κ → List (MemOp ι α)) : Prop :=
  ∀ p q, p ≠ q → ∀ a, ∀ op ∈ progs p, op.Writes a → ∀ op' ∈ progs q, ¬op'.Touches a

def start (progs : κ → List (MemOp ι α)) (s : (ι → α) × (Nat → α)) : Machine κ ι α := ⟨s.1, fun _ => s.2, progs, []⟩

section
variable {progs : κ → List (MemOp ι α)} {s : (ι → α) × (Nat → α)}

structure Inv (progs : κ → List (MemOp ι α)) (s : (ι → α) × (Nat → α)) (m : Machine κ ι α) : Prop where
  split : ∀ p, m.performed p ++ m.todo p = progs p
  regs : ∀ p, m.regs p = (MemOp.execAll s (m.performed p)).2
  mem : ∀ p a, (∃ op ∈ progs p, op.Touches a) → m.mem a = (MemOp.execAll s (m.performed p)).1 a
  untouched : ∀ a, (∀ p, ∀ op ∈ progs p, ¬op.Writes a) → m.mem a = s.1 a
  fresh : (m.history.map (·.2)).Pairwise MemOp.NotStale

theorem start_inv : Inv progs s (start progs s) :=
  ⟨fun _ => rfl, fun _ => rfl, fun _ _ _ => rfl, fun _ _ => rfl, List.Pairwise.nil⟩

theorem step_performed {op : MemOp ι α} {ops : List (MemOp ι α)} (h : m.todo p = op :: ops)
    (hstep : m.step p = some m') : m'.performed p = m.performed p ++ [op] ∧ ∀ q, q ≠ p → m'.performed q = m.performed q := by
  simp only [step, h, Option.some.injEq] at hstep
  subst hstep
  refine ⟨by simp [performed], fun q hq => ?_⟩
  simp [performed, Ne.symm hq]

theorem Inv.step (hsep : Separate progs) (hfresh : ∀ p, (progs p).Pairwise MemOp.NotStale)
    (h : Inv progs s m) (hstep : m.step p = some m') : Inv progs s m' := by
  cases htodo : m.todo p with
  | nil =>
    simp only [Machine.step, htodo] at hstep
    cases hstep
  | cons op ops =>
    obtain ⟨hself, hother⟩ := step_performed htodo hstep
    have heq : m' = ⟨(op.exec (m.mem, m.regs p)).1, Function.update m.regs p (op.exec (m.mem, m.regs p)).2,
        Function.update m.todo p ops, m.history ++ [(p, op)]⟩ := by
      simpa only [Machine.step, htodo, Option.some.injEq, eq_comm] using hstep
    have hmem' : m'.mem = (op.exec (m.mem, m.regs p)).1 := by rw [heq]
    have hregs' : m'.regs = Function.update m.regs p (op.exec (m.mem, m.regs p)).2 := by rw [heq]
    have htodo' : m'.todo = Function.update m.todo p ops := by rw [heq]
    have hprog : progs p = m.performed p ++ op :: ops := by rw [← h.split p, htodo]
    have hop : op ∈ progs p := by
      rw [hprog]
      exact List.mem_append_right _ List.mem_cons_self
    -- the program sees the memory of its own run
    obtain ⟨hregs, hmem⟩ := MemOp.exec_congr (m.regs p) fun a ha => h.mem p a ⟨op, hop, ha⟩
    refine ⟨fun q => ?_, fun q => ?_, fun q a ha => ?_, fun a ha => ?_, ?_⟩
    · by_cases hq : q = p
      · subst hq
        rw [hself, htodo', List.append_assoc, Function.update_self]
        exact hprog.symm
      · rw [hother q hq, htodo', Function.update_of_ne hq]
        exact h.split q
    · by_cases hq : q = p
      · subst hq
        rw [hself, MemOp.execAll_append, hregs', Function.update_self, hregs, h.regs q]
        rfl
      · rw [hother q hq, hregs', Function.update_of_ne hq]
        exact h.regs q
    · by_cases hq : q = p
      · subst hq
        rw [hself, MemOp.execAll_append, hmem', hmem a (h.mem q a ha), h.regs q]
        rfl
      · obtain ⟨op', hop', ht⟩ := ha
        rw [hother q hq, hmem', MemOp.exec_mem_of_not_writes fun hw => hsep p q (Ne.symm hq) a op hop hw op' hop' ht]
        exact h.mem q a ⟨op', hop', ht⟩
    · rw [hmem', MemOp.exec_mem_of_not_writes (ha p op hop)]
      exact h.untouched a ha
    · rw [heq, List.map_append]
      refine List.pairwise_append.mpr ⟨h.fresh, List.pairwise_singleton .., fun x hx y hy => ?_⟩
      obtain ⟨⟨q, x'⟩, hpast, rfl⟩ := List.mem_map.mp hx
      obtain rfl : y = op := by simpa using hy
      have hdone : x' ∈ m.performed q := List.mem_map.mpr ⟨(q, x'), List.mem_filter.mpr ⟨hpast, by simp⟩, rfl⟩
      by_cases hq : q = p
      · subst hq
        have hpair := hfresh q
        rw [hprog] at hpair
        exact (List.pairwise_append.mp hpair).2.2 x' hdone y List.mem_cons_self
      · rintro r r' a rfl rfl
        have hx' : MemOp.store a r ∈ progs q := by
          rw [← h.split q]
          exact List.mem_append_left _ hdone
        exact hsep q p hq a _ hx' rfl _ hop rfl

theorem run_separate (hsep : Separate progs) (hfresh : ∀ p, (progs p).Pairwise MemOp.NotStale) {schedule : List κ}
    (hrun : runFrom Machine.step (start progs s) schedule = some m) (hdone : ∀ p, progs p ≠ [] → m.todo p = []) :
    (∀ p, m.regs p = (MemOp.execAll s (progs p)).2) ∧
    (∀ p a, (∃ op ∈ progs p, op.Touches a) → m.mem a = (MemOp.execAll s (progs p)).1 a) ∧
    (∀ a, (∀ p, ∀ op ∈ progs p, ¬op.Writes a) → m.mem a = s.1 a) ∧
    (m.history.map (·.2)).Pairwise MemOp.NotStale := by
  have h : Inv progs s m := run_kept (fun _ _ _ hs hstep => hs.step hsep hfresh hstep) start_inv hrun
  have hall : ∀ p, m.performed p = progs p := by
    intro p
    have hsplit := h.split p
    by_cases hp : progs p = []
    · rw [hp] at hsplit ⊢
      exact (List.append_eq_nil_iff.mp hsplit).1
    · rwa [hdone p hp, List.append_nil] at hsplit
  refine ⟨fun p => ?_, fun p a ha => ?_, h.untouched, h.fresh⟩
  · rw [h.regs p, hall p]
  · rw [h.mem p a ha, hall p]

end

theorem finish_one (p : κ) (m : Machine κ ι α) : ∃ schedule m', runFrom Machine.step m schedule = some m' ∧
    m'.todo p = [] ∧ ∀ q, q ≠ p → m'.todo q = m.todo q := by
  induction htodo : m.todo p generalizing m with
  | nil => exact ⟨[], m, rfl, htodo, fun _ _ => rfl⟩
  | cons op ops ih =>
    obtain ⟨m₁, hstep, htodo₁⟩ : ∃ m₁, m.step p = some m₁ ∧ m₁.todo = Function.update m.todo p ops := by
      simp only [Machine.step, htodo]
      exact ⟨_, rfl, rfl⟩
    obtain ⟨schedule, m', hrun, hp, hq⟩ := ih m₁ (by rw [htodo₁, Function.update_self])
    refine ⟨p :: schedule, m', ?_, hp, fun q hne => ?_⟩
    · rw [runFrom, hstep]
      exact hrun
    · rw [hq q hne, htodo₁, Function.update_of_ne hne]

theorem finish_all (m : Machine Nat ι α) (n : Nat) :
    ∃ schedule m', runFrom Machine.step m schedule = some m' ∧ ∀ p < n, m'.todo p = [] := by
  induction n with
  | zero => exact ⟨[], m, rfl, nofun⟩
  | succ n ih =>
    obtain ⟨schedule, m₁, hrun, hdone⟩ := ih
    obtain ⟨schedule', m', hrun', hn, hother⟩ := finish_one n m₁
    refine ⟨schedule ++ schedule', m', runFrom_append hrun hrun', fun p hp => ?_⟩
    by_cases hpn : p = n
    · rw [hpn]
      exact hn
    · rw [hother p hpn]
      exact hdone p (by omega)

end Machine

/-! ## Reading and moving -/

/-- What an operation puts in its register: the value of an address, or a value. -/
inductive MemSource (ι α : Type)
  | from (a : ι)
  | value (v : α)

namespace MemSource

def op (r : Nat) : MemSource ι α → MemOp ι α
  | .from a => .load r a
  | .value v => .put r v

def eval (mem : ι → α) : MemSource ι α → α
  | .from a => mem a
  | .value v => v

theorem exec_op (s : (ι → α) × (Nat → α)) (r : Nat) (src : MemSource ι α) :
    (src.op r).exec s = (s.1, Function.update s.2 r (src.eval s.1)) := by
  cases src <;> rfl

end MemSource

omit [DecidableEq ι] in
theorem MemSource.op_touches {src : MemSource ι α} {k : Nat} {a : ι} (h : (src.op k).Touches a) : src = .from a := by
  cases src with
  | «from» b =>
    cases h
    rfl
  | value v => cases h

omit [DecidableEq ι] in
theorem MemSource.op_not_writes {src : MemSource ι α} {k : Nat} {a : ι} : ¬(src.op k).Writes a := by
  cases src <;> exact id

/-- `n` sources into the registers `0, …, n - 1`. -/
def readOps (src : Nat → MemSource ι α) (n : Nat) : List (MemOp ι α) := (List.range n).map fun k => (src k).op k

theorem execAll_readOps (src : Nat → MemSource ι α) (s : (ι → α) × (Nat → α)) (n : Nat) :
    (MemOp.execAll s (readOps src n)).1 = s.1 ∧ ∀ k < n, (MemOp.execAll s (readOps src n)).2 k = (src k).eval s.1 := by
  induction n with
  | zero => exact ⟨rfl, nofun⟩
  | succ n ih =>
    obtain ⟨hmem, hregs⟩ := ih
    have hsucc : readOps src (n + 1) = readOps src n ++ [(src n).op n] := by simp [readOps, List.range_succ]
    rw [hsucc, MemOp.execAll_append, MemOp.execAll_cons, MemOp.execAll_nil, MemSource.exec_op, hmem]
    refine ⟨rfl, fun k hk => ?_⟩
    by_cases hkn : k = n
    · subst hkn
      simp
    · simp only [Function.update_of_ne hkn]
      exact hregs k (by omega)

omit [DecidableEq ι] in
theorem MemSource.notStale {src : MemSource ι α} {k : Nat} (y : MemOp ι α) : MemOp.NotStale (src.op k) y := by
  rintro r r' a heq rfl
  cases src <;> cases heq

omit [DecidableEq ι] in
theorem readOps_fresh (src : Nat → MemSource ι α) (n : Nat) : (readOps src n).Pairwise MemOp.NotStale := by
  refine List.pairwise_of_forall_mem_list fun x hx y _ => ?_
  obtain ⟨k, -, rfl⟩ := List.mem_map.mp hx
  exact MemSource.notStale y

/-- The sources `0, …, n - 1` one after another through the register `r` to `dst`, where `keep` holds. -/
def moveOps (r : Nat) (src : Nat → MemSource ι α) (dst : Nat → ι) (keep : Nat → Bool) (n : Nat) : List (MemOp ι α) :=
  (List.range n).flatMap fun i => (src i).op r :: if keep i then [.store (dst i) r] else []

section
variable {r : Nat} {src : Nat → MemSource ι α} {dst : Nat → ι} {keep : Nat → Bool}

omit [DecidableEq ι] in
theorem moveOps_succ (n : Nat) :
    moveOps r src dst keep (n + 1) = moveOps r src dst keep n ++ (src n).op r :: if keep n then [.store (dst n) r] else [] := by
  simp [moveOps, List.range_succ]

/-- Where no source is an earlier destination, every destination gets what its source was at the start. -/
theorem execAll_moveOps (r : Nat) (src : Nat → MemSource ι α) (dst : Nat → ι) (keep : Nat → Bool) (hinj : ∀ i j, dst i = dst j → i = j) (s : (ι → α) × (Nat → α)) (n : Nat)
    (hlater : ∀ i j, i < j → j < n → ∀ a, src j = .from a → a ≠ dst i) :
    (∀ i < n, keep i = true → (MemOp.execAll s (moveOps r src dst keep n)).1 (dst i) = (src i).eval s.1) ∧
    (∀ a, (∀ i < n, keep i = true → a ≠ dst i) → (MemOp.execAll s (moveOps r src dst keep n)).1 a = s.1 a) ∧
    ∀ k, k ≠ r → (MemOp.execAll s (moveOps r src dst keep n)).2 k = s.2 k := by
  induction n with
  | zero => exact ⟨nofun, fun _ _ => rfl, fun _ _ => rfl⟩
  | succ n ih =>
    obtain ⟨hdst, hmem, hregs⟩ := ih fun i j hij hj => hlater i j hij (by omega)
    rw [moveOps_succ, MemOp.execAll_append]
    generalize MemOp.execAll s (moveOps r src dst keep n) = s₁ at hdst hmem hregs
    have hval : (src n).eval s₁.1 = (src n).eval s.1 := by
      cases hsrc : src n with
      | «from» a => exact hmem a fun i hi _ => hlater i n hi (by omega) a hsrc
      | value v => rfl
    have hkeep : ∀ k, k ≠ r → Function.update s₁.2 r ((src n).eval s₁.1) k = s.2 k := fun k hk => by
      rw [Function.update_of_ne hk]
      exact hregs k hk
    cases hk : keep n with
    | false =>
      simp only [Bool.false_eq_true, if_false, MemOp.execAll_cons, MemOp.execAll_nil, MemSource.exec_op]
      refine ⟨fun i hi hki => ?_, fun a ha => hmem a fun i hi => ha i (by omega), hkeep⟩
      refine hdst i (Nat.lt_of_le_of_ne (by omega) ?_) hki
      rintro rfl
      rw [hk] at hki
      cases hki
    | true =>
      simp only [if_true, MemOp.execAll_cons, MemOp.execAll_nil, MemSource.exec_op, MemOp.exec_store, Function.update_self]
      refine ⟨fun i hi hki => ?_, fun a ha => ?_, hkeep⟩
      · by_cases hin : i = n
        · subst hin
          rw [Function.update_self, hval]
        · rw [Function.update_of_ne fun e => hin (hinj i n e)]
          exact hdst i (by omega) hki
      · rw [Function.update_of_ne (ha n (by omega) hk)]
        exact hmem a fun i hi => ha i (by omega)

omit [DecidableEq ι] in
theorem mem_moveOps {n : Nat} {op : MemOp ι α} (h : op ∈ moveOps r src dst keep n) :
    ∃ i < n, op = (src i).op r ∨ keep i = true ∧ op = .store (dst i) r := by
  obtain ⟨i, hi, hop⟩ := List.mem_flatMap.mp h
  refine ⟨i, List.mem_range.mp hi, ?_⟩
  rcases List.mem_cons.mp hop with rfl | hop
  · exact .inl rfl
  · split at hop
    case isTrue hk => exact .inr ⟨hk, List.mem_singleton.mp hop⟩
    · cases hop

omit [DecidableEq ι] in
theorem store_mem_moveOps (dst : Nat → ι) {n i : Nat} (hi : i < n) (hk : keep i = true) :
    .store (dst i) r ∈ moveOps r src dst keep n := by
  refine List.mem_flatMap.mpr ⟨i, List.mem_range.mpr hi, List.mem_cons_of_mem _ ?_⟩
  rw [if_pos hk]
  exact List.mem_singleton_self _

omit [DecidableEq ι] in
theorem moveOps_fresh (n : Nat) (hlater : ∀ i j, i < j → j < n → ∀ a, src j = .from a → a ≠ dst i) :
    (moveOps r src dst keep n).Pairwise MemOp.NotStale := by
  induction n with
  | zero => exact List.Pairwise.nil
  | succ n ih =>
    rw [moveOps_succ]
    refine List.pairwise_append.mpr ⟨ih fun i j hij hj => hlater i j hij (by omega), ?_, fun x hx y hy => ?_⟩
    · split
      · refine List.pairwise_pair.mpr ?_
        intro r₁ r₂ a hs
        nofun
      · exact List.pairwise_singleton ..
    · rintro r₁ r₂ a rfl rfl
      obtain ⟨i, hi, hx⟩ := mem_moveOps hx
      have hdst : a = dst i := by
        rcases hx with hx | ⟨-, hx⟩
        · cases hsrc : src i <;> rw [hsrc] at hx <;> cases hx
        · cases hx
          rfl
      have hsrc : src n = .from a := by
        rcases List.mem_cons.mp hy with hy | hy
        · cases hsrc : src n with
          | «from» b =>
            rw [hsrc] at hy
            cases hy
            rfl
          | value v =>
            rw [hsrc] at hy
            cases hy
        · split at hy
          · cases List.mem_singleton.mp hy
          · cases hy
      exact hlater i n hi (by omega) a hsrc hdst

end

end VllmHcu
