import Mathlib.Data.List.Nodup
import Mathlib.Tactic.Common
import VllmHcu.Ipc.Teardown

/-!
# The order of teardown

What a rank does next is a function of the exchanges that have returned to it, so
the ranks take the same exchanges in the same order. A rank frees a buffer only
after an exchange in which every rank has reported that its mappings are closed.
-/

namespace VllmHcu.Ipc

/-! ## One rank -/

def Fits : Stage → Payload → Prop
  | .allocating _, .handle _ => True
  | .allocating _, .status _ => False
  | _, .status _ => True
  | _, .handle _ => False

/-- The rank has contributed to an exchange that has not returned. -/
def Pc.waiting : Pc → Bool
  | .exchange _ _ sent => sent
  | _ => false

namespace Endpoint

/-- The mappings that the rank holds open. -/
def held (e : Endpoint) : List Mapping :=
  match e.pc with
  | .closeMappings todo remaining _ => todo ++ remaining
  | _ => e.importedBuffers

/-- The buffers that the rank owns and has not freed. -/
def owns (e : Endpoint) : List Nat :=
  match e.pc with
  | .freeOwned todo remaining _ => todo ++ remaining
  | _ => e.ownedBuffers

/-- The next exchange that the rank takes part in, as far as its own calls go. -/
def plan (e : Endpoint) : Option (Stage × Mode) :=
  match e.pc with
  | .fresh => some (.allocating .data, .construct)
  | .allocate b => some (.allocating b, .construct)
  | .exchange stage _ _ => some (stage, e.mode)
  | .openHandles b _ => some (.opening b, .construct)
  | .initBuffers => some (.initializing, .construct)
  | .idle => if e.needsCoordinatedClose then some (.quiescing, .close) else none
  | .synchronize => some (.quiescing, e.mode)
  | .closeMappings .. => some (.closing, e.mode)
  | .freeOwned .. | .raised => none

/-- The part of the invariant that does not read the program counter. -/
structure Between (e : Endpoint) : Prop where
  sent_le : e.received ≤ e.sent.length ∧ e.sent.length ≤ e.received + 1
  noClosing : e.mode = .construct → ∀ x ∈ e.sent, x.1 ≠ .closing
  failed_needs : e.collectiveFailed = true → e.needsCoordinatedClose = true
  swept : (Stage.closing, Payload.status none) ∈ e.sent → e.importedBuffers = []

structure Inv (e : Endpoint) : Prop extends Between e where
  mode : match e.pc with
    | .fresh | .allocate _ | .openHandles .. | .initBuffers => e.mode = .construct
    | .synchronize | .closeMappings .. | .freeOwned .. => e.mode ≠ .construct
    | .exchange stage _ _ => e.mode = .construct ↔ stage ≠ .quiescing ∧ stage ≠ .closing
    | .idle | .raised => True
  needs : match e.pc with
    | .fresh | .freeOwned .. => e.needsCoordinatedClose = false
    | .idle | .raised => True
    | _ => e.needsCoordinatedClose = true
  payload : match e.pc with
    | .exchange stage payload sent => Fits stage payload ∧
      (stage = .closing → payload = .status none → e.importedBuffers = []) ∧
      (sent = true → e.sent[e.received]? = some (stage, payload))
    | .closeMappings _ remaining error => (error = none → remaining = []) ∧
      (Stage.closing, Payload.status none) ∉ e.sent
    | _ => True
  failed : e.collectiveFailed = true → e.pc = .idle ∨ e.pc = .raised
  sent_eq : e.collectiveFailed = false → e.sent.length = e.received + e.pc.waiting.toNat

/-- What follows an exchange. -/
def nextPlan (stage : Stage) (mode : Mode) (failed : Bool) : Option (Stage × Mode) :=
  if failed then
    match mode with
    | .construct => some (.quiescing, .cleanup)
    | .cleanup => none
    | .close => some (.quiescing, .close)
  else
    match stage with
    | .allocating b => some (.opening b, mode)
    | .opening .data => some (.allocating .flags, mode)
    | .opening .flags => some (.initializing, mode)
    | .initializing => some (.quiescing, .close)
    | .quiescing => some (.closing, mode)
    | .closing => none

end Endpoint

def Payload.failed : Payload → Bool
  | .handle (.error _) => true
  | .status (some _) => true
  | _ => false

/-! ### The jumps of the control flow -/

namespace Endpoint

section
variable {e : Endpoint} (h : Between e) (heq : e.collectiveFailed = false → e.sent.length = e.received)
include h heq

theorem endCall_inv : Inv e.endCall := by
  have hpc : ∀ pc, (pc = .idle ∨ pc = .raised) → Inv { e with pc := pc } := by
    rintro pc (rfl | rfl)
    · exact ⟨⟨h.sent_le, h.noClosing, h.failed_needs, h.swept⟩, trivial, trivial, trivial, fun _ => .inl rfl,
        by simpa [Pc.waiting] using heq⟩
    · exact ⟨⟨h.sent_le, h.noClosing, h.failed_needs, h.swept⟩, trivial, trivial, trivial, fun _ => .inr rfl,
        by simpa [Pc.waiting] using heq⟩
  unfold endCall
  split
  · exact hpc _ (.inl rfl)
  · exact hpc _ (.inr rfl)
  · exact hpc _ (.inr rfl)

theorem nextFree_inv (hmode : e.mode ≠ .construct) (hneeds : e.needsCoordinatedClose = false) (todo remaining : List Nat)
    (error : Option String) : Inv (e.nextFree todo remaining error) := by
  have hok : e.collectiveFailed = false := by
    cases hf : e.collectiveFailed with
    | false => rfl
    | true =>
      rw [h.failed_needs hf] at hneeds
      cases hneeds
  unfold nextFree
  cases todo with
  | nil => exact endCall_inv ⟨h.sent_le, h.noClosing, h.failed_needs, h.swept⟩ heq
  | cons b todo =>
    refine ⟨⟨h.sent_le, h.noClosing, h.failed_needs, h.swept⟩, hmode, hneeds, trivial, ?_, ?_⟩
    · simp [hok]
    · simpa [Pc.waiting] using heq

theorem beginClose_inv (hmode : e.mode ≠ .construct) : Inv e.beginClose := by
  have h' : Between { e with disabled := true } := ⟨h.sent_le, h.noClosing, h.failed_needs, h.swept⟩
  unfold beginClose
  dsimp only
  split
  · rename_i hneeds
    split
    · exact endCall_inv h' heq
    · rename_i hok
      refine ⟨⟨h.sent_le, h.noClosing, h.failed_needs, h.swept⟩, hmode, hneeds, trivial, ?_, ?_⟩
      · exact fun hf => absurd hf hok
      · simpa [Pc.waiting] using heq
  · rename_i hneeds
    exact nextFree_inv h' heq hmode (by simpa using hneeds) _ _ _

theorem raise_inv : Inv e.raise := by
  unfold raise
  split
  · split
    · rename_i hm hf
      exact ⟨⟨h.sent_le, h.noClosing, h.failed_needs, h.swept⟩, trivial, trivial, trivial, by simp,
        by simpa [Pc.waiting] using heq⟩
    · exact beginClose_inv ⟨h.sent_le, nofun, h.failed_needs, h.swept⟩ heq nofun
  · exact endCall_inv h heq
  · exact endCall_inv h heq

theorem exchange_inv (hok : e.collectiveFailed = false) (hneeds : e.needsCoordinatedClose = true) {stage : Stage}
    {payload : Payload} (hmode : e.mode = .construct ↔ stage ≠ .quiescing ∧ stage ≠ .closing) (hfits : Fits stage payload)
    (hclean : stage = .closing → payload = .status none → e.importedBuffers = []) :
    Inv { e with pc := .exchange stage payload false } := by
  refine ⟨⟨h.sent_le, h.noClosing, h.failed_needs, h.swept⟩, hmode, hneeds, ⟨hfits, hclean, nofun⟩, ?_, ?_⟩
  · simp [hok]
  · simpa [Pc.waiting] using heq

theorem nextUnmap_inv (hok : e.collectiveFailed = false) (hmode : e.mode ≠ .construct)
    (hneeds : e.needsCoordinatedClose = true) {todo remaining : List Mapping} {error : Option String}
    (hrem : error = none → remaining = [])
    (hsw : (Stage.closing, Payload.status none) ∈ e.sent → todo ++ remaining = []) :
    Inv (e.nextUnmap todo remaining error) := by
  unfold nextUnmap
  cases todo with
  | nil =>
    have h' : Between { e with importedBuffers := remaining } :=
      ⟨h.sent_le, h.noClosing, h.failed_needs, by simpa using hsw⟩
    refine exchange_inv h' heq hok hneeds (by simpa using hmode) trivial fun _ hp => ?_
    cases hp
    exact hrem rfl
  | cons m todo =>
    have hnot : (Stage.closing, Payload.status none) ∉ e.sent := fun hm => by simpa using hsw hm
    refine ⟨⟨h.sent_le, h.noClosing, h.failed_needs, h.swept⟩, hmode, hneeds, ⟨hrem, hnot⟩, ?_, ?_⟩
    · simp [hok]
    · simpa [Pc.waiting] using heq

theorem nextOpen_inv (hok : e.collectiveFailed = false) (hmode : e.mode = .construct)
    (hneeds : e.needsCoordinatedClose = true) (b : Buf) (todo : List Handle) : Inv (e.nextOpen b todo) := by
  unfold nextOpen
  cases todo with
  | nil => exact exchange_inv h heq hok hneeds (by simp [hmode]) trivial nofun
  | cons m todo =>
    refine ⟨⟨h.sent_le, h.noClosing, h.failed_needs, h.swept⟩, hmode, hneeds, trivial, ?_, ?_⟩
    · simp [hok]
    · simpa [Pc.waiting] using heq

end

/-! ### What the rank plans -/

section
variable {e : Endpoint}

theorem plan_endCall (hmode : e.mode ≠ .construct) :
    e.endCall.plan = if e.mode = .close ∧ e.needsCoordinatedClose = true then some (.quiescing, .close) else none := by
  unfold endCall
  cases hm : e.mode with
  | construct => exact absurd hm hmode
  | cleanup => rfl
  | close => simp [plan]

theorem plan_nextFree (hmode : e.mode ≠ .construct) (hneeds : e.needsCoordinatedClose = false)
    (todo remaining : List Nat) (error : Option String) : (e.nextFree todo remaining error).plan = none := by
  unfold nextFree
  cases todo with
  | nil =>
    dsimp only
    rw [plan_endCall (e := { e with ownedBuffers := remaining }) hmode]
    simp [hneeds]
  | cons b todo => rfl

theorem plan_beginClose (hmode : e.mode ≠ .construct) (hok : e.collectiveFailed = false) :
    e.beginClose.plan = if e.needsCoordinatedClose = true then some (.quiescing, e.mode) else none := by
  unfold beginClose
  dsimp only
  split
  · simp [hok, plan]
  · rename_i hneeds
    exact plan_nextFree (e := { e with disabled := true }) hmode (by simpa using hneeds) _ _ _

theorem plan_raise (hok : e.collectiveFailed = false) (hneeds : e.needsCoordinatedClose = true) (stage : Stage) :
    e.raise.plan = nextPlan stage e.mode true := by
  unfold raise nextPlan
  cases hm : e.mode with
  | construct =>
    have hok' : ¬ e.collectiveFailed = true := by simp [hok]
    dsimp only
    rw [if_pos rfl, if_neg hok', plan_beginClose (e := { e with mode := .cleanup }) nofun hok]
    simp [hneeds]
  | cleanup =>
    have hne : e.mode ≠ .construct := by rw [hm]; nofun
    simp [plan_endCall hne, hm]
  | close =>
    have hne : e.mode ≠ .construct := by rw [hm]; nofun
    simp [plan_endCall hne, hm, hneeds]

theorem plan_nextUnmap (todo remaining : List Mapping) (error : Option String) :
    (e.nextUnmap todo remaining error).plan = some (.closing, e.mode) := by
  unfold nextUnmap
  cases todo with
  | _ => rfl

theorem plan_nextOpen (hmode : e.mode = .construct) (b : Buf) (todo : List Handle) :
    (e.nextOpen b todo).plan = some (.opening b, .construct) := by
  unfold nextOpen
  cases todo with
  | nil => simp [plan, hmode]
  | cons h todo => rfl

end

section
variable {payloads : List Payload} {stage : Stage}

theorem mapM_handle?_eq_none {b : Buf} (hfits : ∀ p ∈ payloads, Fits (.allocating b) p) :
    payloads.mapM Payload.handle? = none ↔ payloads.any Payload.failed = true := by
  induction payloads with
  | nil => simp
  | cons p l ih =>
    have ih := ih fun p hp => hfits p (List.mem_cons_of_mem _ hp)
    have hp := hfits p List.mem_cons_self
    cases p with
    | status error => cases hp
    | handle result =>
      cases result with
      | error msg => simp [List.mapM_cons, Payload.handle?, Payload.failed]
      | ok hd =>
        simp only [List.mapM_cons, Payload.handle?, List.any_cons, Payload.failed, Bool.false_or, ← ih]
        cases l.mapM Payload.handle? with
        | _ => simp

theorem any_badStatus (hfits : ∀ p ∈ payloads, Fits stage p) (hst : ∀ b, stage ≠ .allocating b) :
    payloads.any Payload.badStatus = payloads.any Payload.failed := by
  induction payloads with
  | nil => rfl
  | cons p l ih =>
    have ih := ih fun p hp => hfits p (List.mem_cons_of_mem _ hp)
    have hp := hfits p List.mem_cons_self
    rw [List.any_cons, List.any_cons, ih]
    congr 1
    cases p with
    | status error =>
      cases error with
      | _ => rfl
    | handle result =>
      cases stage with
      | allocating b => exact absurd rfl (hst b)
      | _ => cases hp

theorem plan_afterExchange {e : Endpoint} (r : Nat) (hok : e.collectiveFailed = false)
    (hneeds : e.needsCoordinatedClose = true) (hmode : e.mode = .construct ↔ stage ≠ .quiescing ∧ stage ≠ .closing)
    (hfits : ∀ p ∈ payloads, Fits stage p) :
    (e.afterExchange r stage payloads).plan = nextPlan stage e.mode (payloads.any Payload.failed) := by
  by_cases hf : payloads.any Payload.failed = true
  · rw [hf, ← plan_raise hok hneeds stage]
    cases stage with
    | allocating b => simp [afterExchange, (mapM_handle?_eq_none hfits).mpr hf]
    | _ => simp only [afterExchange, any_badStatus hfits nofun, hf, if_true]
  · have hf' : payloads.any Payload.failed = false := by simpa using hf
    rw [hf']
    cases stage with
    | allocating b =>
      cases hh : payloads.mapM Payload.handle? with
      | none => exact absurd ((mapM_handle?_eq_none hfits).mp hh) hf
      | some handles =>
        have hm : e.mode = .construct := hmode.mpr ⟨nofun, nofun⟩
        simp [afterExchange, hh, plan_nextOpen hm, nextPlan, hm]
    | opening b =>
      have hm : e.mode = .construct := hmode.mpr ⟨nofun, nofun⟩
      simp only [afterExchange, any_badStatus hfits nofun, hf', Bool.false_eq_true, if_false]
      cases b with
      | _ => simp [plan, nextPlan, hm]
    | initializing => simp [afterExchange, any_badStatus hfits nofun, hf', plan, nextPlan, hneeds]
    | quiescing => simp [afterExchange, any_badStatus hfits nofun, hf', plan_nextUnmap, nextPlan]
    | closing =>
      have hm : e.mode ≠ .construct := fun hm => (hmode.mp hm).2 rfl
      simp only [afterExchange, any_badStatus hfits nofun, hf', Bool.false_eq_true, if_false, nextPlan]
      exact plan_nextFree (e := { e with needsCoordinatedClose := false }) hm rfl _ _ _

theorem afterExchange_inv {e : Endpoint} (r : Nat) (h : Between e) (heq : e.sent.length = e.received)
    (hok : e.collectiveFailed = false) (hneeds : e.needsCoordinatedClose = true)
    (hmode : e.mode = .construct ↔ stage ≠ .quiescing ∧ stage ≠ .closing) : Inv (e.afterExchange r stage payloads) := by
  have heq' : e.collectiveFailed = false → e.sent.length = e.received := fun _ => heq
  have hraise : Inv e.raise := raise_inv h heq'
  have hpc : ∀ pc, Between { e with pc := pc } := fun _ => ⟨h.sent_le, h.noClosing, h.failed_needs, h.swept⟩
  cases stage with
  | allocating b =>
    have hm : e.mode = .construct := hmode.mpr ⟨nofun, nofun⟩
    simp only [afterExchange]
    split
    · exact hraise
    · exact nextOpen_inv h heq' hok hm hneeds _ _
  | opening b =>
    have hm : e.mode = .construct := hmode.mpr ⟨nofun, nofun⟩
    simp only [afterExchange]
    split
    · exact hraise
    · cases b with
      | _ => exact ⟨hpc _, hm, hneeds, trivial, by simp [hok], fun _ => by simp [Pc.waiting, heq]⟩
  | initializing =>
    simp only [afterExchange]
    split
    · exact hraise
    · exact ⟨⟨h.sent_le, h.noClosing, h.failed_needs, h.swept⟩, trivial, trivial, trivial, by simp,
        fun _ => by simp [Pc.waiting, heq]⟩
  | quiescing =>
    have hm : e.mode ≠ .construct := fun hm => (hmode.mp hm).1 rfl
    simp only [afterExchange]
    split
    · exact hraise
    · exact nextUnmap_inv h heq' hok hm hneeds (fun _ => rfl) (by simpa using h.swept)
  | closing =>
    have hm : e.mode ≠ .construct := fun hm => (hmode.mp hm).2 rfl
    simp only [afterExchange]
    split
    · exact hraise
    · exact nextFree_inv (e := { e with needsCoordinatedClose := false })
        ⟨h.sent_le, h.noClosing, by simp [hok], h.swept⟩ heq' hm rfl _ _ _

end

/-! ### What the jumps keep -/

/-- The jumps keep the history and the flags, and what the rank holds and owns. -/
structure Keeps (e e' : Endpoint) (held : List Mapping) (owns : List Nat) : Prop where
  sent : e'.sent = e.sent
  received : e'.received = e.received
  collectiveFailed : e'.collectiveFailed = e.collectiveFailed
  held : e'.held = held
  owns : e'.owns = owns

section
variable (e : Endpoint)

theorem endCall_keeps : Keeps e e.endCall e.importedBuffers e.ownedBuffers := by
  unfold endCall
  cases e.mode with
  | _ => exact ⟨rfl, rfl, rfl, rfl, rfl⟩

theorem endCall_needs : e.endCall.needsCoordinatedClose = e.needsCoordinatedClose := by
  unfold endCall
  cases e.mode with
  | _ => rfl

theorem nextFree_keeps (todo remaining : List Nat) (error : Option String) :
    Keeps e (e.nextFree todo remaining error) e.importedBuffers (todo ++ remaining) := by
  unfold nextFree
  cases todo with
  | nil =>
    have h := endCall_keeps { e with ownedBuffers := remaining }
    exact ⟨h.sent, h.received, h.collectiveFailed, h.held, h.owns⟩
  | cons b todo => exact ⟨rfl, rfl, rfl, rfl, rfl⟩

theorem nextFree_needs (todo remaining : List Nat) (error : Option String) :
    (e.nextFree todo remaining error).needsCoordinatedClose = e.needsCoordinatedClose := by
  unfold nextFree
  cases todo with
  | nil => exact endCall_needs { e with ownedBuffers := remaining }
  | cons b todo => rfl

theorem beginClose_keeps : Keeps e e.beginClose e.importedBuffers e.ownedBuffers := by
  unfold beginClose
  dsimp only
  split
  · split
    · have h := endCall_keeps { e with disabled := true }
      exact ⟨h.sent, h.received, h.collectiveFailed, h.held, h.owns⟩
    · exact ⟨rfl, rfl, rfl, rfl, rfl⟩
  · have h := nextFree_keeps { e with disabled := true } e.ownedBuffers [] none
    exact ⟨h.sent, h.received, h.collectiveFailed, h.held, by simpa using h.owns⟩

theorem beginClose_needs : e.beginClose.needsCoordinatedClose = e.needsCoordinatedClose := by
  unfold beginClose
  dsimp only
  split
  · split
    · exact endCall_needs { e with disabled := true }
    · rfl
  · exact nextFree_needs { e with disabled := true } e.ownedBuffers [] none

theorem raise_keeps : Keeps e e.raise e.importedBuffers e.ownedBuffers := by
  unfold raise
  cases e.mode with
  | construct =>
    dsimp only
    split
    · exact ⟨rfl, rfl, rfl, rfl, rfl⟩
    · have h := beginClose_keeps { e with mode := .cleanup }
      exact ⟨h.sent, h.received, h.collectiveFailed, h.held, h.owns⟩
  | _ => exact endCall_keeps e

theorem raise_needs : e.raise.needsCoordinatedClose = e.needsCoordinatedClose := by
  unfold raise
  cases e.mode with
  | construct =>
    dsimp only
    split
    · rfl
    · exact beginClose_needs { e with mode := .cleanup }
  | _ => exact endCall_needs e

theorem nextUnmap_keeps (todo remaining : List Mapping) (error : Option String) :
    Keeps e (e.nextUnmap todo remaining error) (todo ++ remaining) e.ownedBuffers := by
  unfold nextUnmap
  cases todo with
  | _ => exact ⟨rfl, rfl, rfl, rfl, rfl⟩

theorem nextUnmap_needs (todo remaining : List Mapping) (error : Option String) :
    (e.nextUnmap todo remaining error).needsCoordinatedClose = e.needsCoordinatedClose := by
  unfold nextUnmap
  cases todo with
  | _ => rfl

theorem nextOpen_keeps (b : Buf) (todo : List Handle) :
    Keeps e (e.nextOpen b todo) e.importedBuffers e.ownedBuffers := by
  unfold nextOpen
  cases todo with
  | _ => exact ⟨rfl, rfl, rfl, rfl, rfl⟩

theorem nextOpen_needs (b : Buf) (todo : List Handle) :
    (e.nextOpen b todo).needsCoordinatedClose = e.needsCoordinatedClose := by
  unfold nextOpen
  cases todo with
  | _ => rfl

theorem afterExchange_keeps (r : Nat) (stage : Stage) (payloads : List Payload) :
    Keeps e (e.afterExchange r stage payloads) e.importedBuffers e.ownedBuffers := by
  have hraise := raise_keeps e
  cases stage with
  | allocating b =>
    simp only [afterExchange]
    split
    · exact hraise
    · exact nextOpen_keeps e _ _
  | opening b =>
    simp only [afterExchange]
    split
    · exact hraise
    · cases b with
      | _ => exact ⟨rfl, rfl, rfl, rfl, rfl⟩
  | initializing =>
    simp only [afterExchange]
    split
    · exact hraise
    · exact ⟨rfl, rfl, rfl, rfl, rfl⟩
  | quiescing =>
    simp only [afterExchange]
    split
    · exact hraise
    · simpa using nextUnmap_keeps e e.importedBuffers [] none
  | closing =>
    simp only [afterExchange]
    split
    · exact hraise
    · have h := nextFree_keeps { e with needsCoordinatedClose := false } e.ownedBuffers [] none
      exact ⟨h.sent, h.received, h.collectiveFailed, h.held, by simpa using h.owns⟩

/-- Only the exchange about the mappings ends the need for coordination, when all have closed theirs. -/
theorem afterExchange_needs (r : Nat) (stage : Stage) (payloads : List Payload)
    (h : (e.afterExchange r stage payloads).needsCoordinatedClose = false) (hneeds : e.needsCoordinatedClose = true) :
    stage = .closing ∧ payloads.any Payload.badStatus = false := by
  have hraise : ¬ e.raise.needsCoordinatedClose = false := by simp [raise_needs, hneeds]
  cases stage with
  | allocating b =>
    simp only [afterExchange] at h
    split at h
    · exact absurd h hraise
    · rw [nextOpen_needs, hneeds] at h
      cases h
  | opening b =>
    simp only [afterExchange] at h
    split at h
    · exact absurd h hraise
    · cases b with
      | _ => exact absurd (h.symm.trans hneeds) nofun
  | initializing =>
    simp only [afterExchange] at h
    split at h
    · exact absurd h hraise
    · exact absurd (h.symm.trans hneeds) nofun
  | quiescing =>
    simp only [afterExchange] at h
    split at h
    · exact absurd h hraise
    · rw [nextUnmap_needs, hneeds] at h
      cases h
  | closing =>
    simp only [afterExchange] at h
    split at h
    · exact absurd h hraise
    · exact ⟨rfl, by simpa using ‹¬payloads.any Payload.badStatus = true›⟩

end

end Endpoint

end VllmHcu.Ipc
