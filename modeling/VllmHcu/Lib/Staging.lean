import Mathlib.Logic.Function.Basic
import Mathlib.Logic.Relation
import Mathlib.Tactic.Common

/-!
# Staging buffers behind asynchronous copies

The host fills a staging buffer and enqueues a copy that reads it only when the
stream gets there. An event records how far the stream has to be before its
buffers may be filled again. A disciplined program waits for the event of a buffer
before it fills it, and then the device ends as blocking copies would leave it.
-/

namespace VllmHcu.Staging

variable {κ ε V D : Type}

/-- An operation of the stream. A copy reads its staging buffer when it runs. -/
inductive StreamOp (κ V D : Type)
  | launch (f : D → D)
  | copy (b : κ) (land : V → D → D)

inductive HostOp (κ ε V D : Type)
  | synchronize (e : ε)
  | write (b : κ) (v : V)
  | enqueue (op : StreamOp κ V D)
  | record (e : ε)
  | finish

/-- `queue` holds the operations in flight, the oldest first; an event is the number of operations that
have to be completed. -/
structure System (κ ε V D : Type) where
  staging : κ → V
  event : ε → Nat
  queue : List (StreamOp κ V D)
  completed : Nat
  device : D

def StreamOp.exec (staging : κ → V) : StreamOp κ V D → D → D
  | .launch f, d => f d
  | .copy b land, d => land (staging b) d

def StreamOp.Reads (b : κ) : StreamOp κ V D → Prop
  | .launch _ => False
  | .copy b' _ => b' = b

section
variable [DecidableEq κ] [DecidableEq ε]

/-- The host stands still until the operation is enabled. -/
def HostOp.Enabled (st : System κ ε V D) : HostOp κ ε V D → Prop
  | .synchronize e => st.event e ≤ st.completed
  | .finish => st.queue = []
  | _ => True

def HostOp.exec (st : System κ ε V D) : HostOp κ ε V D → System κ ε V D
  | .synchronize _ => st
  | .write b v => { st with staging := Function.update st.staging b v }
  | .enqueue op => { st with queue := st.queue ++ [op] }
  | .record e => { st with event := Function.update st.event e (st.completed + st.queue.length) }
  | .finish => st

/-- The host runs its program while the stream runs what is queued. -/
inductive Step : List (HostOp κ ε V D) × System κ ε V D → List (HostOp κ ε V D) × System κ ε V D → Prop
  | host {o rest st} : o.Enabled st → Step (o :: rest, st) (rest, o.exec st)
  | device {rest st op queue} : st.queue = op :: queue → Step (rest, st)
      (rest, { st with queue := queue, completed := st.completed + 1, device := op.exec st.staging st.device })

abbrev Reachable (x y : List (HostOp κ ε V D) × System κ ε V D) : Prop := Relation.ReflTransGen Step x y

/-- The device once the queue has drained. -/
def System.drain (st : System κ ε V D) : D := st.queue.foldl (fun d op => op.exec st.staging d) st.device

/-- The same operation when every copy blocks. -/
def HostOp.blocking (x : (κ → V) × D) : HostOp κ ε V D → (κ → V) × D
  | .write b v => (Function.update x.1 b v, x.2)
  | .enqueue op => (x.1, op.exec x.1 x.2)
  | _ => x

def runBlocking (ops : List (HostOp κ ε V D)) (x : (κ → V) × D) : (κ → V) × D := ops.foldl HostOp.blocking x

/-! ## The discipline -/

/-- What is known of the copies in flight that read a buffer: there are none, its event waits for all of
them, or nothing. -/
inductive Phase
  | quiet
  | covered
  | busy

variable (event : κ → ε)

def HostOp.phase (φ : κ → Phase) : HostOp κ ε V D → κ → Phase
  | .synchronize e => fun b => if event b = e then .quiet else φ b
  | .enqueue (.copy b _) => Function.update φ b .busy
  | .record e => fun b => if event b = e then .covered else φ b
  | .finish => fun _ => .quiet
  | _ => φ

/-- A buffer is filled only when no copy reads it, and its event is waited for only when recorded. -/
def HostOp.Allowed (φ : κ → Phase) : HostOp κ ε V D → Prop
  | .synchronize e => ∀ b, event b = e → φ b ≠ .busy
  | .write b _ => φ b = .quiet
  | _ => True

def phases (φ : κ → Phase) (ops : List (HostOp κ ε V D)) : κ → Phase := ops.foldl (fun φ o => o.phase event φ) φ

def Disciplined : (κ → Phase) → List (HostOp κ ε V D) → Prop
  | _, [] => True
  | φ, o :: ops => o.Allowed event φ ∧ Disciplined (o.phase event φ) ops

theorem disciplined_append {φ : κ → Phase} {ops ops' : List (HostOp κ ε V D)} :
    Disciplined event φ (ops ++ ops') ↔ Disciplined event φ ops ∧ Disciplined event (phases event φ ops) ops' := by
  induction ops generalizing φ with
  | nil => exact (iff_of_eq (true_and _)).symm
  | cons o ops ih =>
    change _ ∧ Disciplined event _ (ops ++ ops') ↔ (_ ∧ _) ∧ _
    rw [ih, and_assoc]
    rfl

/-- What the phases say of the system. -/
structure Holds (φ : κ → Phase) (st : System κ ε V D) : Prop where
  quiet : ∀ b, φ b = .quiet → ∀ op ∈ st.queue, ¬op.Reads b
  covered : ∀ b, φ b = .covered → ∀ i op, st.queue[i]? = some op → op.Reads b → st.completed + i < st.event (event b)

variable {event} {φ : κ → Phase} {st : System κ ε V D}

omit [DecidableEq κ] [DecidableEq ε] in
theorem Holds.device (h : Holds event φ st) {op : StreamOp κ V D} {queue : List (StreamOp κ V D)}
    (hq : st.queue = op :: queue) : Holds event φ
      { st with queue := queue, completed := st.completed + 1, device := op.exec st.staging st.device } where
  quiet b hb op' hop := h.quiet b hb op' (hq ▸ List.mem_cons_of_mem _ hop)
  covered b hb i op' hi hr := by
    have := h.covered b hb (i + 1) op' (by rw [hq]; exact hi) hr
    change st.completed + 1 + i < st.event (event b)
    omega

theorem Holds.host (h : Holds event φ st) {o : HostOp κ ε V D} (hallow : o.Allowed event φ) (hen : o.Enabled st) :
    Holds event (o.phase event φ) (o.exec st) := by
  cases o with
  | synchronize e =>
    refine ⟨fun b hb op hop hr => ?_, fun b hb => ?_⟩
    · change (if event b = e then Phase.quiet else φ b) = _ at hb
      by_cases he : event b = e
      · cases hφ : φ b with
        | quiet => exact h.quiet b hφ op hop hr
        | covered =>
          obtain ⟨i, hi⟩ := List.mem_iff_getElem?.mp hop
          have hlt := h.covered b hφ i op hi hr
          have hle : st.event e ≤ st.completed := hen
          rw [he] at hlt
          omega
        | busy => exact hallow b he hφ
      · rw [if_neg he] at hb
        exact h.quiet b hb op hop hr
    · change (if event b = e then Phase.quiet else φ b) = _ at hb
      split at hb
      · cases hb
      · exact h.covered b hb
  | write b v => exact ⟨h.quiet, h.covered⟩
  | enqueue op =>
    have hkept : ∀ b, ¬op.Reads b → (HostOp.enqueue op : HostOp κ ε V D).phase event φ b = φ b := by
      intro b hr
      cases op with
      | launch f => rfl
      | copy b' land => exact Function.update_of_ne (Ne.symm hr) _ _
    have hbusy : ∀ b, op.Reads b → (HostOp.enqueue op : HostOp κ ε V D).phase event φ b = .busy := by
      intro b hr
      cases op with
      | launch f => cases hr
      | copy b' land =>
        cases hr
        exact Function.update_self ..
    refine ⟨fun b hb op' hop hr => ?_, fun b hb i op' hi hr => ?_⟩
    · by_cases hop' : op.Reads b
      · rw [hbusy b hop'] at hb
        cases hb
      · rw [hkept b hop'] at hb
        rcases List.mem_append.mp hop with hop | hop
        · exact h.quiet b hb op' hop hr
        · rw [List.mem_singleton.mp hop] at hr
          exact hop' hr
    · by_cases hop' : op.Reads b
      · rw [hbusy b hop'] at hb
        cases hb
      · rw [hkept b hop'] at hb
        change (st.queue ++ [op])[i]? = _ at hi
        rcases Nat.lt_or_ge i st.queue.length with hlt | hge
        · rw [List.getElem?_append_left hlt] at hi
          exact h.covered b hb i op' hi hr
        · rw [List.getElem?_append_right hge] at hi
          have hmem := List.mem_iff_getElem?.mpr ⟨_, hi⟩
          rw [List.mem_singleton.mp hmem] at hr
          exact absurd hr hop'
  | record e =>
    refine ⟨fun b hb => ?_, fun b hb i op hi hr => ?_⟩
    · change (if event b = e then Phase.covered else φ b) = _ at hb
      split at hb
      · cases hb
      · exact h.quiet b hb
    · change (if event b = e then Phase.covered else φ b) = _ at hb
      change st.completed + i < Function.update st.event e (st.completed + st.queue.length) (event b)
      by_cases he : event b = e
      · have hlt := (List.getElem?_eq_some_iff.mp hi).1
        change i < st.queue.length at hlt
        rw [he, Function.update_self]
        omega
      · rw [if_neg he] at hb
        rw [Function.update_of_ne he]
        exact h.covered b hb i op hi hr
  | finish =>
    have hq : st.queue = [] := hen
    refine ⟨fun b _ op hop => ?_, fun b hb => ?_⟩
    · change op ∈ st.queue at hop
      rw [hq] at hop
      cases hop
    · cases hb

/-! ## The system beside blocking copies -/

theorem foldl_exec_update {b : κ} {v : V} {staging : κ → V} {ops : List (StreamOp κ V D)}
    (h : ∀ op ∈ ops, ¬op.Reads b) (d : D) :
    ops.foldl (fun d op => op.exec (Function.update staging b v) d) d = ops.foldl (fun d op => op.exec staging d) d := by
  induction ops generalizing d with
  | nil => rfl
  | cons op ops ih =>
    have hop : op.exec (Function.update staging b v) d = op.exec staging d := by
      cases op with
      | launch f => rfl
      | copy b' land =>
        have hne : b' ≠ b := h _ (List.mem_cons_self ..)
        change land (Function.update staging b v b') d = _
        rw [Function.update_of_ne hne]
        rfl
    rw [List.foldl_cons, List.foldl_cons, hop]
    exact ih (fun op' hop' => h op' (List.mem_cons_of_mem _ hop')) _

theorem Holds.exec_drain (h : Holds event φ st) {o : HostOp κ ε V D} (hallow : o.Allowed event φ) :
    ((o.exec st).staging, (o.exec st).drain) = o.blocking (st.staging, st.drain) := by
  cases o with
  | synchronize e => rfl
  | write b v => exact congrArg (Prod.mk _) (foldl_exec_update (h.quiet b hallow) _)
  | enqueue op =>
    refine congrArg (Prod.mk _) ?_
    exact List.foldl_append
  | record e => rfl
  | finish => rfl

omit [DecidableEq κ] [DecidableEq ε] in
theorem drain_device {op : StreamOp κ V D} {queue : List (StreamOp κ V D)} (hq : st.queue = op :: queue) :
    System.drain { st with queue := queue, completed := st.completed + 1, device := op.exec st.staging st.device } =
      st.drain := by
  unfold System.drain
  rw [hq]
  rfl

/-- The program that is left behaves as the whole program does when every copy blocks. -/
structure Agrees (event : κ → ε) (goal : (κ → V) × D) (x : List (HostOp κ ε V D) × System κ ε V D) : Prop where
  holds : ∃ φ, Holds event φ x.2 ∧ Disciplined event φ x.1
  blocking : runBlocking x.1 (x.2.staging, x.2.drain) = goal

theorem Agrees.step {goal : (κ → V) × D} {x y : List (HostOp κ ε V D) × System κ ε V D} (h : Agrees event goal x)
    (hs : Step x y) : Agrees event goal y := by
  obtain ⟨⟨φ, hφ, hd⟩, hgoal⟩ := h
  cases hs with
  | host hen =>
    refine ⟨⟨_, hφ.host hd.1 hen, hd.2⟩, ?_⟩
    rw [← hgoal, hφ.exec_drain hd.1]
    rfl
  | device hq =>
    refine ⟨⟨φ, hφ.device hq, hd⟩, ?_⟩
    rw [← hgoal, drain_device hq]

theorem Agrees.reachable {goal : (κ → V) × D} {x y : List (HostOp κ ε V D) × System κ ε V D} (h : Agrees event goal x)
    (hr : Reachable x y) : Agrees event goal y := by
  induction hr with
  | refl => exact h
  | tail _ hs ih => exact ih.step hs

variable {prog rest : List (HostOp κ ε V D)} {st' : System κ ε V D}

/-- No staging buffer is filled while a copy that reads it is in flight. -/
theorem write_safe (hh : Holds event φ st) (hd : Disciplined event φ prog) {b : κ} {v : V}
    (hr : Reachable (prog, st) (.write b v :: rest, st')) : ∀ op ∈ st'.queue, ¬op.Reads b := by
  obtain ⟨⟨φ', hφ, hd'⟩, -⟩ := (Agrees.mk ⟨φ, hh, hd⟩ rfl : Agrees event _ (prog, st)).reachable hr
  exact hφ.quiet b hd'.1

/-- The device ends as blocking copies would leave it. -/
theorem drain_eq_blocking (hh : Holds event φ st) (hd : Disciplined event φ prog) (hr : Reachable (prog, st) ([], st')) :
    (st'.staging, st'.drain) = runBlocking prog (st.staging, st.drain) :=
  ((Agrees.mk ⟨φ, hh, hd⟩ rfl : Agrees event _ (prog, st)).reachable hr).blocking

omit [DecidableEq κ] [DecidableEq ε] in
theorem holds_of_queue_nil (hq : st.queue = []) (φ : κ → Phase) : Holds event φ st where
  quiet b _ op hop := by
    rw [hq] at hop
    cases hop
  covered b _ i op hi := by
    rw [hq] at hi
    cases hi

end

end VllmHcu.Staging
