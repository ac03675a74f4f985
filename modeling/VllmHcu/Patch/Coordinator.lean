import VllmHcu.Patch.Registry
import VllmHcu.Patch.Replacement

/-!
# The import coordinator and its threads

Threads register payloads, install the finder, ask it for specs, and call the
loaders that it has given. A thread is a stack of the functions that it is in; a
step of it is one critical section, and the payloads and the modules that are
executed are code of others, which may call the coordinator again.

A feature flag is stored in the entry and in the record. It is set by a
registration, by a registration that is made again with another flag, and by
`set_feature_enabled`; `mark_applied` is given the flag of the entry.
-/

namespace VllmHcu.Patch

inductive ImportAction
  | callback
  | replacement
deriving DecidableEq

structure Entry where
  patchId : String
  moduleName : String
  targets : List String
  action : ImportAction
  payload : Nat
  featureEnabled : Bool
  latePolicy : LatePolicy
deriving DecidableEq

/-- `_same_registration` -/
def Entry.same (e e' : Entry) : Bool :=
  e.moduleName = e'.moduleName && e.targets = e'.targets && e.action = e'.action && e.payload = e'.payload &&
    e.latePolicy = e'.latePolicy

/-- The loops of `find_spec`, in their order. -/
inductive FindStage
  | applied
  | applying
  | failed
  | active
  | callbacks

/-- Where the thread is in a function of the coordinator; a list of ids is what a loop has still to do. -/
inductive Frame
  | registeredCallback (id : String)
  | registeredAgain (id : String)
  | registeredArmed (id : String)
  | registeredReplacement (id : String)
  | replacementAgain (id : String)
  -- `_apply_callback` before `begin`, and its payload
  | applyCallback (id : String)
  | callback (id : String)
  | moduleLoaded (todo : List String) (error : Bool)
  | moduleLoadFailed (error : Failure) (todo : List String)
  | loadFailedMark (error : Failure) (id : String) (todo : List String)
  -- `_create_replacement`: the check, `begin`, and the payload
  | create (name : String)
  | createBegin (id : String)
  | createResolve (id : String)
  | replacementLoaded (name : String)
  | replacementMark (id name : String)
  -- `_replace_loaded_module`: `begin`, the payload, and the end
  | replaceLoaded (id : String)
  | replaceResolve (id : String)
  | replaceMark (id : String)
  -- `exec_module` of the loader that a `_PostLoadLoader` wraps
  | delegateExec (name : String)
  | install (names : List String)
  | installActive (name : String) (todo : List String)
  -- `mark_failed` with a `LateModuleReplacementError`, which is raised
  | lateFail (id message : String)
  | drain (todo : List String)
  | drainArmed (id : String) (todo : List String)
  | findSpec (name : String) (stage : FindStage) (all todo : List String) (sawFailed : Bool)

/-- Whether the thread runs code of others. -/
def Frame.foreign : Frame → Bool
  | .callback _ => true
  | .createResolve _ => true
  | .replaceResolve _ => true
  | .delegateExec _ => true
  | _ => false

/-- An exception leaves the functions up to code of others, or to a `_module_loaded`, which goes on. -/
def unwind : List Frame → List Frame
  | [] => []
  | .moduleLoaded todo _ :: rest => .moduleLoaded todo true :: rest
  | f :: rest => if f.foreign then f :: rest else unwind rest

inductive LoaderKind
  | postLoad
  | replacement
deriving DecidableEq

structure Coordinator where
  reg : PatchRegistry := {}
  -- `_entries`; `_by_module` lists a module's entries in the same order
  entries : List Entry := []
  installed : Bool := false
  threads : Nat → List Frame := fun _ => []
  -- the entries whose `replacement_module` is set, and the loaders that were given
  resolved : List String := []
  loaders : List (String × LoaderKind) := []
  -- the payloads that were called: callbacks, and replacements
  calls : List String := []
  resolutions : List String := []
  -- whether a `find_spec` that began after a failure did not block
  leak : Bool := false

/-- What a thread does next: it calls the coordinator, takes a step, or its payload ends. `loaded` is whether
the step finds in `sys.modules` what it looks for. -/
inductive CoordinatorEvent
  | registerCallback (patchId moduleName : String) (targets : List String) (payload : Nat) (featureEnabled : Bool)
  | registerReplacement (patchId moduleName : String) (targets : List String) (payload : Nat) (featureEnabled : Bool)
      (latePolicy : LatePolicy)
  | install
  | findSpec (name : String) (reload : Bool)
  | createModule (name : String)
  | execReplacement (name : String)
  | execPostLoad (name : String)
  | drainReadyCallbacks
  | step (loaded : Bool)
  | returns
  | unavailable (reason : String)
  | raises (typeName message : String)

inductive FeatureEvent
  | coordinator (e : CoordinatorEvent)
  | setFeatureEnabled (patchId : String) (enabled : Bool)

namespace PatchRegistry

/-- Whether `set_feature_enabled` of the registry takes a flag for the id. -/
def takesFeature (reg : PatchRegistry) (patchId : String) : Bool :=
  match reg.requireRecord patchId with
  | .ok record => record.status = .armed || record.status = .applied || record.status = .skipped
  | .error _ => false

end PatchRegistry

namespace Coordinator

def setStack (s : Coordinator) (thread : Nat) (frames : List Frame) : Coordinator :=
  { s with threads := Function.update s.threads thread frames }

/-- The function on top raises. -/
def raise (s : Coordinator) (thread : Nat) (rest : List Frame) : Coordinator := s.setStack thread (unwind rest)

/-- A critical section of the registry, and what follows from its outcome. -/
def perform (s : Coordinator) (thread : Nat) (id : String) (c : RegistryCall)
    (next : Coordinator → Outcome → Coordinator) : Option Coordinator :=
  (s.reg.perform thread id c).map fun p => next { s with reg := p.1 } p.2

def entry? (s : Coordinator) (id : String) : Option Entry := s.entries.find? (·.patchId = id)

def moduleOf (s : Coordinator) (id : String) : String := ((s.entry? id).map (·.moduleName)).getD ""

def status? (s : Coordinator) (id : String) : Option PatchStatus := (s.reg.get id).map (·.status)

/-- The ids of a module, of all entries or of those with an action. -/
def idsOf (s : Coordinator) (name : String) : List String :=
  (s.entries.filter (·.moduleName = name)).map (·.patchId)

def idsWith (s : Coordinator) (name : String) (action : ImportAction) : List String :=
  (s.entries.filter fun e => e.moduleName = name && e.action = action).map (·.patchId)

def moduleNames (s : Coordinator) : List String := (s.entries.map (·.moduleName)).dedup

/-! ## `_register` -/

/-- The state, and whether the entry is new, or an error. -/
def register (s : Coordinator) (thread : Nat) (e : Entry) : Coordinator × Option Bool :=
  match s.entry? e.patchId with
  | some existing =>
    if !existing.same e then (s, none)
    else if s.status? e.patchId = some .failed then (s, none)
    else if existing.featureEnabled = e.featureEnabled then (s, some false)
    else
      let entries := s.entries.map fun x => if x.patchId = e.patchId then { x with featureEnabled := e.featureEnabled } else x
      match s.reg.perform thread e.patchId (.setFeatureEnabled e.featureEnabled) with
      | some (reg, .record _) => ({ s with reg, entries }, some false)
      | _ => ({ s with entries }, none)
  | none =>
    if e.action = .replacement && s.entries.any (fun x => x.moduleName = e.moduleName && x.action = .replacement) then
      (s, none)
    else
      match s.reg.perform thread e.patchId (.declare e.targets) with
      | some (reg, .record _) =>
        match reg.perform thread e.patchId (.setFeatureEnabled e.featureEnabled) with
        | some (reg, .record _) => ({ s with reg, entries := s.entries ++ [e] }, some true)
        | _ => ({ s with reg }, none)
      | _ => (s, none)

/-! ## Steps -/

def nextStage : FindStage → Option FindStage
  | .applied => some .applying
  | .applying => some .failed
  | .failed => some .active
  | .active => some .callbacks
  | .callbacks => none

/-- The loader that a loop of `find_spec` ends with at an entry: `none` to go on, `some none` for a `_BlockedLoader`. -/
def found (stage : FindStage) (e : Option Entry) (status : Option PatchStatus) : Option (Option LoaderKind) :=
  match stage with
  | .applied => if status = some .applied then some none else none
  | .applying => if status = some .applying then some none else none
  | .failed => if status = some .failed then some none else none
  | .active =>
    if e.any (·.action = .replacement) && (status = some .armed || status = some .applied) then some (some .replacement)
    else none
  | .callbacks => if e.any (·.action = .callback) && status = some .armed then some (some .postLoad) else none

/-- The step of `find_spec`. -/
def findStep (s : Coordinator) (thread : Nat) (rest : List Frame) (name : String) (stage : FindStage)
    (all todo : List String) (sawFailed : Bool) : Coordinator :=
  match todo with
  | id :: todo =>
    match found stage (s.entry? id) (s.status? id) with
    | none => s.setStack thread (.findSpec name stage all todo sawFailed :: rest)
    | some none => s.setStack thread rest
    | some (some kind) => { s.setStack thread rest with loaders := (name, kind) :: s.loaders, leak := s.leak || sawFailed }
  | [] =>
    match nextStage stage with
    | some stage => s.setStack thread (.findSpec name stage all all sawFailed :: rest)
    -- `None`
    | none => { s.setStack thread rest with leak := s.leak || sawFailed }

def lateMessage (name advice : String) : String := "cannot replace already imported module '" ++ name ++ "'; " ++ advice

def raisedOr (out : Outcome) (raised ok : Coordinator) : Coordinator :=
  match out with
  | .raised _ => raised
  | _ => ok

/-- The next critical section of the function on top. -/
def frameStep (s : Coordinator) (thread : Nat) (f : Frame) (rest : List Frame) (loaded : Bool) : Option Coordinator :=
  match f with
  | .registeredCallback id => some (s.setStack thread (if loaded then .applyCallback id :: rest else rest))
  | .registeredAgain id =>
    some (if s.status? id = some .failed then s.raise thread rest else s.setStack thread (.registeredArmed id :: rest))
  | .registeredArmed id =>
    some (s.setStack thread (if loaded && s.status? id = some .armed then .applyCallback id :: rest else rest))
  | .registeredReplacement id =>
    if !loaded then some (s.setStack thread rest)
    else
      match (s.entry? id).map (·.latePolicy) with
      | some LatePolicy.replace => some (s.setStack thread (.replaceLoaded id :: rest))
      | _ => some (s.setStack thread
          (.lateFail id (lateMessage (s.moduleOf id) "register this replacement during platform plugin initialization")
            :: rest))
  | .replacementAgain id =>
    some (if s.status? id = some .failed then s.raise thread rest else s.setStack thread rest)
  | .applyCallback id =>
    s.perform thread id .begin fun s out =>
      match out with
      | .claimed true => { s.setStack thread (.callback id :: rest) with calls := id :: s.calls }
      | .claimed false => s.setStack thread rest
      | _ => s.raise thread rest
  | .moduleLoaded todo error =>
    match todo with
    | [] => some (if error then s.raise thread rest else s.setStack thread rest)
    | id :: todo =>
      let rest := .moduleLoaded todo error :: rest
      some (s.setStack thread (if s.status? id = some .armed then .applyCallback id :: rest else rest))
  | .moduleLoadFailed error todo =>
    match todo with
    | [] => some (s.raise thread rest)
    | id :: todo =>
      some (s.setStack thread
        (if s.status? id = some .armed then .loadFailedMark error id todo :: rest
          else .moduleLoadFailed error todo :: rest))
  | .loadFailedMark error id todo =>
    s.perform thread id (.markFailed error) fun s out =>
      raisedOr out (s.raise thread rest) (s.setStack thread (.moduleLoadFailed error todo :: rest))
  | .create name =>
    match (s.idsWith name .replacement).head? with
    | none => some (s.raise thread rest)
    | some id =>
      some (if s.status? id = some .applied then
          if id ∈ s.resolved then s.setStack thread rest else s.raise thread rest
        else s.setStack thread (.createBegin id :: rest))
  | .createBegin id =>
    s.perform thread id .begin fun s out =>
      -- the answer of `begin` is not looked at
      raisedOr out (s.raise thread rest) { s.setStack thread (.createResolve id :: rest) with resolutions := id :: s.resolutions }
  | .replacementLoaded name =>
    match (s.idsWith name .replacement).head? with
    | none => some (s.raise thread rest)
    | some id =>
      some (if s.status? id = some .applying then s.setStack thread (.replacementMark id name :: rest)
        else { s.setStack thread (.moduleLoaded (s.idsWith name .callback) false :: rest) with
          loaders := (name, .replacement) :: s.loaders })
  | .replacementMark id name =>
    s.perform thread id (.markApplied ((s.entry? id).any (·.featureEnabled))) fun s out =>
      raisedOr out (s.raise thread rest)
        { s.setStack thread (.moduleLoaded (s.idsWith name .callback) false :: rest) with
          loaders := (name, .replacement) :: s.loaders }
  | .replaceLoaded id =>
    s.perform thread id .begin fun s out =>
      match out with
      | .claimed true => { s.setStack thread (.replaceResolve id :: rest) with resolutions := id :: s.resolutions }
      | .claimed false => s.setStack thread rest
      | _ => s.raise thread rest
  | .replaceMark id =>
    s.perform thread id (.markApplied ((s.entry? id).any (·.featureEnabled))) fun s out =>
      raisedOr out (s.raise thread rest)
        { s.setStack thread (.moduleLoaded (s.idsWith (s.moduleOf id) .callback) false :: rest) with
          loaders := (s.moduleOf id, .replacement) :: s.loaders }
  | .install names =>
    match names with
    | [] => some (s.setStack thread rest)
    | name :: names =>
      let rest := .install names :: rest
      some (s.setStack thread (if loaded then .installActive name (s.idsWith name .replacement) :: rest else rest))
  | .installActive name todo =>
    match todo with
    | [] => some (s.setStack thread (.moduleLoaded (s.idsWith name .callback) false :: rest))
    | id :: todo =>
      if s.status? id = some .armed ∨ s.status? id = some .applied then
        match (s.entry? id).map (·.latePolicy) with
        | some LatePolicy.replace => some (s.setStack thread (.replaceLoaded id :: rest))
        | _ => some (s.setStack thread (.lateFail id (lateMessage name
            "the module loaded between HCU registration and coordinator install") :: rest))
      else some (s.setStack thread (.installActive name todo :: rest))
  | .lateFail id message =>
    s.perform thread id (.markFailed (.exception "LateModuleReplacementError" message)) fun s _ => s.raise thread rest
  | .drain todo =>
    match todo with
    | [] => some (s.setStack thread rest)
    | id :: todo =>
      some (if s.status? id = some .failed then s.raise thread rest else s.setStack thread (.drainArmed id todo :: rest))
  | .drainArmed id todo =>
    let rest := .drain todo :: rest
    some (s.setStack thread (if s.status? id = some .armed && loaded then .applyCallback id :: rest else rest))
  | .findSpec name stage all todo sawFailed => some (s.findStep thread rest name stage all todo sawFailed)
  -- code of others takes its own steps
  | .callback _ => none
  | .createResolve _ => none
  | .replaceResolve _ => none
  | .delegateExec _ => none

/-- The end of a payload, or of the module that a `_PostLoadLoader` executes. -/
def payloadEnd (s : Coordinator) (thread : Nat) (f : Frame) (rest : List Frame) : CoordinatorEvent → Option Coordinator
  | .returns =>
    match f with
    | .callback id =>
      s.perform thread id (.markApplied ((s.entry? id).any (·.featureEnabled))) fun s out =>
        raisedOr out (s.raise thread rest) (s.setStack thread rest)
    | .createResolve id => some { s.setStack thread rest with resolved := id :: s.resolved }
    | .replaceResolve id => some { s.setStack thread (.replaceMark id :: rest) with resolved := id :: s.resolved }
    | .delegateExec name => some (s.setStack thread (.moduleLoaded (s.idsWith name .callback) false :: rest))
    | _ => none
  | .unavailable reason =>
    match f with
    | .callback id =>
      s.perform thread id (.markSkipped (some reason)) fun s out =>
        raisedOr out (s.raise thread rest) (s.setStack thread rest)
    | _ => none
  | .raises typeName message =>
    match f with
    | .callback id =>
      s.perform thread id (.markFailed (.exception typeName message)) fun s _ => s.raise thread rest
    | .createResolve id =>
      s.perform thread id (.markFailed (.exception typeName message)) fun s _ => s.raise thread rest
    | .replaceResolve id =>
      s.perform thread id (.markFailed (.exception typeName message)) fun s _ => s.raise thread rest
    | .delegateExec name =>
      some (s.setStack thread (.moduleLoadFailed (.exception typeName message) (s.idsWith name .callback) :: rest))
    | _ => none
  | _ => none

/-- A call of the coordinator; an error goes to the caller. -/
def start (s : Coordinator) (thread : Nat) : CoordinatorEvent → Option Coordinator
  | .registerCallback patchId moduleName targets payload featureEnabled =>
    match s.register thread ⟨patchId, moduleName, targets, .callback, payload, featureEnabled, .fail⟩ with
    | (s, none) => some s
    | (s, some true) => some (s.setStack thread (.registeredCallback patchId :: s.threads thread))
    | (s, some false) => some (s.setStack thread (.registeredAgain patchId :: s.threads thread))
  | .registerReplacement patchId moduleName targets payload featureEnabled latePolicy =>
    match s.register thread ⟨patchId, moduleName, targets, .replacement, payload, featureEnabled, latePolicy⟩ with
    | (s, none) => some s
    | (s, some true) => some (s.setStack thread (.registeredReplacement patchId :: s.threads thread))
    | (s, some false) => some (s.setStack thread (.replacementAgain patchId :: s.threads thread))
  | .install =>
    if s.installed then some s
    else some { s.setStack thread (.install s.moduleNames :: s.threads thread) with installed := true }
  | .findSpec name reload =>
    let all := s.idsOf name
    let sawFailed := all.any fun id => s.status? id = some .failed
    some (s.setStack thread
      (.findSpec name (if reload then .applied else .applying) all all sawFailed :: s.threads thread))
  | .createModule name =>
    if (name, .replacement) ∈ s.loaders then some (s.setStack thread (.create name :: s.threads thread)) else none
  | .execReplacement name =>
    if (name, .replacement) ∈ s.loaders then some (s.setStack thread (.replacementLoaded name :: s.threads thread)) else none
  | .execPostLoad name =>
    if (name, .postLoad) ∈ s.loaders then some (s.setStack thread (.delegateExec name :: s.threads thread)) else none
  | .drainReadyCallbacks =>
    some (s.setStack thread
      (.drain ((s.entries.filter (·.action = .callback)).map (·.patchId)) :: s.threads thread))
  | _ => none

def step (s : Coordinator) (e : Nat × CoordinatorEvent) : Option Coordinator :=
  match s.threads e.1 with
  | [] => s.start e.1 e.2
  | f :: rest =>
    if f.foreign then (s.start e.1 e.2).orElse fun _ => s.payloadEnd e.1 f rest e.2
    else
      match e.2 with
      | .step loaded => s.frameStep e.1 f rest loaded
      | _ => none

/-! ## Feature flags -/

/-- `entry.feature_enabled = enabled` -/
def setEntryFeature (s : Coordinator) (patchId : String) (enabled : Bool) : Coordinator :=
  { s with entries := s.entries.map fun x => if x.patchId = patchId then { x with featureEnabled := enabled } else x }

/-- The state, and the entry that is viewed, or an error. -/
def setFeatureEnabled (s : Coordinator) (thread : Nat) (patchId : String) (enabled : Bool) : Coordinator × Option Entry :=
  match s.entry? patchId with
  | none => (s, none)
  | some entry =>
    -- the entry is written before the registry is asked
    let s := s.setEntryFeature patchId enabled
    match s.reg.perform thread patchId (.setFeatureEnabled enabled) with
    | some (reg, .record _) => ({ s with reg }, some { entry with featureEnabled := enabled })
    | _ => (s, none)

/-- A step of the coordinator, or a call of `set_feature_enabled` where the thread may call it. -/
def featureStep (s : Coordinator) (e : Nat × FeatureEvent) : Option Coordinator :=
  match e.2 with
  | .coordinator c => s.step (e.1, c)
  | .setFeatureEnabled patchId enabled =>
    if (s.threads e.1).head?.all Frame.foreign then some (s.setFeatureEnabled e.1 patchId enabled).1 else none

/-- Whether a flag that is set is the one that the entry has, or one that the registry takes. -/
def accepts (s : Coordinator) (patchId : String) (enabled : Bool) : Bool :=
  (s.entry? patchId).all (·.featureEnabled = enabled) || s.reg.takesFeature patchId

/-- Whether a registration that is made again is refused before the flag of its entry is written. -/
def conflicts (s : Coordinator) (e : Entry) : Bool :=
  (s.entry? e.patchId).any fun existing => !existing.same e || s.status? e.patchId = some .failed

/-- The flags that the event sets are accepted. -/
def settles (s : Coordinator) (e : Nat × FeatureEvent) : Bool :=
  match e.2 with
  | .setFeatureEnabled patchId enabled => s.accepts patchId enabled
  | .coordinator (.registerCallback patchId moduleName targets payload featureEnabled) =>
    s.conflicts ⟨patchId, moduleName, targets, .callback, payload, featureEnabled, .fail⟩ || s.accepts patchId featureEnabled
  | .coordinator (.registerReplacement patchId moduleName targets payload featureEnabled latePolicy) =>
    s.conflicts ⟨patchId, moduleName, targets, .replacement, payload, featureEnabled, latePolicy⟩ ||
      s.accepts patchId featureEnabled
  | _ => true

end Coordinator

end VllmHcu.Patch
