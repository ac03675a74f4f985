import Mathlib.Data.List.DropRight
import Mathlib.Logic.Function.Basic
import VllmHcu.Lib.Run

/-!
# The registry of runtime patches

A patch is declared, claimed by the thread that applies it, and finished. The
operations take a patch id as the caller wrote it; some of them use it as a key
and some use the id without the spaces around it.
-/

namespace VllmHcu.Patch

/-! ## Ids -/

-- what `str.strip` removes
def isSpace (c : Char) : Bool :=
  c.toNat ∈ [0x20, 0x85, 0xA0, 0x1680, 0x2028, 0x2029, 0x202F, 0x205F, 0x3000] ||
    (0x9 ≤ c.toNat && c.toNat ≤ 0xD) || (0x1C ≤ c.toNat && c.toNat ≤ 0x1F) || (0x2000 ≤ c.toNat && c.toNat ≤ 0x200A)

@[irreducible] def strip (s : String) : String := String.ofList ((s.toList.dropWhile isSpace).rdropWhile isSpace)

/-! ## Records -/

inductive PatchStatus
  | armed
  | applying
  | applied
  | skipped
  | failed
deriving DecidableEq

structure PatchRecord where
  patchId : String
  status : PatchStatus
  targets : List String
  featureEnabled : Bool := false
  failureReason : Option String := none
deriving DecidableEq

inductive RegistryError
  | emptyId
  | emptyTargets
  | alreadyBound (patchId : String) (existing targets : List String)
  | notDeclared (patchId : String)
  | reentrant (patchId : String)
  | previouslyFailed (patchId : String) (reason : Option String)
  | cannotMarkApplied (patchId : String) (status : PatchStatus)
  | cannotSkip (patchId : String) (status : PatchStatus)
  | cannotFail (patchId : String) (status : PatchStatus)
  | featureState (status : PatchStatus)
  | emptyReason
deriving DecidableEq

/-- What `mark_failed` is given: an exception, by its type and its text, or a text. -/
inductive Failure
  | exception (typeName message : String)
  | text (reason : String)

def formatFailure : Failure → Except RegistryError String
  | .exception typeName message => .ok (if message = "" then typeName else typeName ++ ": " ++ message)
  | .text reason => if strip reason = "" then .error .emptyReason else .ok (strip reason)

structure PatchRegistry where
  records : String → Option PatchRecord := fun _ => none
  -- by patch id, the thread that applies it
  owners : String → Option Nat := fun _ => none

namespace PatchRegistry

def validatePatchId (patchId : String) : Except RegistryError String :=
  if strip patchId = "" then .error .emptyId else .ok (strip patchId)

def normaliseTargets (targets : List String) : Except RegistryError (List String) :=
  if targets = [] || targets.any (fun t => strip t = "") then .error .emptyTargets else .ok (targets.map strip)

def setRecord (reg : PatchRegistry) (patchId : String) (record : PatchRecord) : PatchRegistry :=
  { reg with records := Function.update reg.records patchId (some record) }

def requireRecord (reg : PatchRegistry) (patchId : String) : Except RegistryError PatchRecord := do
  let patchId ← validatePatchId patchId
  match reg.records patchId with
  | some record => .ok record
  | none => .error (.notDeclared patchId)

def finish (reg : PatchRegistry) (patchId : String) (record : PatchRecord) : PatchRegistry where
  records := Function.update reg.records patchId (some record)
  owners := Function.update reg.owners patchId none

def declare (reg : PatchRegistry) (patchId : String) (targets : List String) :
    Except RegistryError (PatchRecord × PatchRegistry) := do
  let patchId ← validatePatchId patchId
  let targets ← normaliseTargets targets
  match reg.records patchId with
  | some existing =>
    if existing.targets = targets then .ok (existing, reg)
    else .error (.alreadyBound patchId existing.targets targets)
  | none =>
    let record : PatchRecord := { patchId, status := .armed, targets }
    .ok (record, reg.setRecord patchId record)

/-- `none` while the call waits for the owner. -/
def begin (reg : PatchRegistry) (thread : Nat) (patchId : String) :
    Except RegistryError (Option (Bool × PatchRegistry)) := do
  let patchId ← validatePatchId patchId
  match reg.records patchId with
  | none => .error (.notDeclared patchId)
  | some record =>
    match record.status with
    | .applying => if reg.owners patchId = some thread then .error (.reentrant patchId) else .ok none
    | .failed => .error (.previouslyFailed patchId record.failureReason)
    | .applied => .ok (some (false, reg))
    | .skipped => .ok (some (false, reg))
    | .armed =>
      .ok (some (true, {
        records := Function.update reg.records patchId (some { record with status := .applying, failureReason := none })
        owners := Function.update reg.owners patchId (some thread) }))

def markApplied (reg : PatchRegistry) (patchId : String) (featureEnabled : Bool) :
    Except RegistryError (PatchRecord × PatchRegistry) := do
  let record ← reg.requireRecord patchId
  if record.status = .applied then .ok (record, reg)
  else if record.status ≠ .applying then .error (.cannotMarkApplied patchId record.status)
  else
    let updated := { record with status := .applied, featureEnabled, failureReason := none }
    .ok (updated, reg.finish patchId updated)

def markSkipped (reg : PatchRegistry) (patchId : String) (reason : Option String) :
    Except RegistryError (PatchRecord × PatchRegistry) := do
  let record ← reg.requireRecord patchId
  if record.status = .skipped then .ok (record, reg)
  else if record.status ≠ .armed ∧ record.status ≠ .applying then .error (.cannotSkip patchId record.status)
  else
    let updated := { record with status := .skipped, failureReason := reason }
    .ok (updated, reg.finish patchId updated)

def markFailed (reg : PatchRegistry) (patchId : String) (error : Failure) :
    Except RegistryError (PatchRecord × PatchRegistry) := do
  let reason ← formatFailure error
  let record ← reg.requireRecord patchId
  if record.status = .failed then .ok (record, reg)
  else if record.status = .applied ∨ record.status = .skipped then .error (.cannotFail patchId record.status)
  else
    let updated := { record with status := .failed, failureReason := some reason }
    .ok (updated, reg.finish patchId updated)

def setFeatureEnabled (reg : PatchRegistry) (patchId : String) (enabled : Bool) :
    Except RegistryError (PatchRecord × PatchRegistry) := do
  let record ← reg.requireRecord patchId
  if record.status = .armed ∨ record.status = .applied ∨ record.status = .skipped then
    let updated := { record with featureEnabled := enabled }
    .ok (updated, reg.setRecord patchId updated)
  else .error (.featureState record.status)

def get (reg : PatchRegistry) (patchId : String) : Option PatchRecord := reg.records patchId

end PatchRegistry

/-! ## Calls -/

inductive RegistryCall
  | declare (targets : List String)
  | begin
  | markApplied (featureEnabled : Bool)
  | markSkipped (reason : Option String)
  | markFailed (error : Failure)
  | setFeatureEnabled (enabled : Bool)
  | get

inductive Outcome
  | raised (error : RegistryError)
  | record (record : Option PatchRecord)
  | claimed (ok : Bool)
deriving DecidableEq

namespace PatchRegistry

/-- A call that returns a record, or raises and changes nothing. -/
def settle (reg : PatchRegistry) : Except RegistryError (PatchRecord × PatchRegistry) → PatchRegistry × Outcome
  | .ok (record, reg') => (reg', .record (some record))
  | .error e => (reg, .raised e)

/-- One call of a thread. `none` while it waits. -/
def perform (reg : PatchRegistry) (thread : Nat) (patchId : String) : RegistryCall → Option (PatchRegistry × Outcome)
  | .declare targets => some (reg.settle (reg.declare patchId targets))
  | .begin =>
    match reg.begin thread patchId with
    | .ok none => none
    | .ok (some (ok, reg')) => some (reg', .claimed ok)
    | .error e => some (reg, .raised e)
  | .markApplied featureEnabled => some (reg.settle (reg.markApplied patchId featureEnabled))
  | .markSkipped reason => some (reg.settle (reg.markSkipped patchId reason))
  | .markFailed error => some (reg.settle (reg.markFailed patchId error))
  | .setFeatureEnabled enabled => some (reg.settle (reg.setFeatureEnabled patchId enabled))
  | .get => some (reg, .record (reg.get patchId))

end PatchRegistry

/-! ## Threads -/

/-- A `run_patch` that has declared its patch. -/
structure RunPatch where
  patchId : String
  featureEnabled : Bool
  -- whether its callback runs
  running : Bool := false

inductive PatchEvent
  | call (thread : Nat) (patchId : String) (c : RegistryCall)
  -- `run_patch`: its start, its claim, and the end of its callback
  | runPatch (thread : Nat) (patchId : String) (targets : List String) (featureEnabled : Bool)
  | runBegin (thread : Nat)
  | callbackReturns (thread : Nat)
  | callbackRaises (thread : Nat) (typeName message : String)

structure PatchSystem where
  reg : PatchRegistry := {}
  -- by thread, the calls of `run_patch` it is in
  runs : Nat → List RunPatch := fun _ => []
  -- the patches claimed, and the ids of the calls of `run_patch` that ran their callback and returned
  claims : List String := []
  returned : List String := []

namespace PatchSystem

/-- A thread that is not in `run_patch`, or is in the callback of its innermost one. -/
def free (s : PatchSystem) (thread : Nat) : Bool := (s.runs thread).head?.all (·.running)

def logged (s : PatchSystem) (patchId : String) : Outcome → List String
  | .claimed true => strip patchId :: s.claims
  | _ => s.claims

/-- Calls the registry. -/
def calls (s : PatchSystem) (thread : Nat) (patchId : String) (c : RegistryCall) : Option (PatchSystem × Outcome) :=
  (s.reg.perform thread patchId c).map fun p => ({ s with reg := p.1, claims := s.logged patchId p.2 }, p.2)

def setRuns (s : PatchSystem) (thread : Nat) (runs : List RunPatch) : PatchSystem :=
  { s with runs := Function.update s.runs thread runs }

def step (s : PatchSystem) : PatchEvent → Option PatchSystem
  | .call thread patchId c => if s.free thread then (s.calls thread patchId c).map (·.1) else none
  | .runPatch thread patchId targets featureEnabled =>
    if s.free thread then
      (s.calls thread patchId (.declare targets)).map fun p =>
        match p.2 with
        | .raised _ => p.1
        | _ => p.1.setRuns thread (⟨patchId, featureEnabled, false⟩ :: p.1.runs thread)
    else none
  | .runBegin thread =>
    match s.runs thread with
    | ⟨patchId, featureEnabled, false⟩ :: rest =>
      (s.calls thread patchId .begin).map fun p =>
        match p.2 with
        | .claimed true => p.1.setRuns thread (⟨patchId, featureEnabled, true⟩ :: rest)
        | _ => p.1.setRuns thread rest
    | _ => none
  | .callbackReturns thread =>
    match s.runs thread with
    | ⟨patchId, featureEnabled, true⟩ :: rest =>
      (s.calls thread patchId (.markApplied featureEnabled)).map fun p =>
        match p.2 with
        | .raised _ => p.1.setRuns thread rest
        | _ => { p.1.setRuns thread rest with returned := patchId :: p.1.returned }
    | _ => none
  | .callbackRaises thread typeName message =>
    match s.runs thread with
    | ⟨patchId, _, true⟩ :: rest =>
      (s.calls thread patchId (.markFailed (.exception typeName message))).map fun p => p.1.setRuns thread rest
    | _ => none

end PatchSystem

end VllmHcu.Patch
