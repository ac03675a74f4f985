import Mathlib.Logic.Function.Basic
import VllmHcu.Lib.Run
import VllmHcu.Patch.Registry

/-!
# Replacing a module

A replacement is registered for the name of a module and takes its place when
the name is imported. A module that was bound before has to be replaced when the
replacement is registered, or when the coordinator is installed.
-/

namespace VllmHcu.Patch

inductive LatePolicy
  | fail
  | replace
deriving DecidableEq

/-- What a name is bound to in `sys.modules`. -/
inductive ModuleObject
  | canonical
  | replacement
deriving DecidableEq

/-- How a callback ends: it returns, it raises `OptionalPatchUnavailable`, or it raises. -/
inductive CallbackOutcome
  | returns
  | unavailable
  | raises
deriving DecidableEq

/-- Where the import of a module by the other finders stands: they have given a spec, or the module is bound and runs. -/
inductive LoadPhase
  | found
  | executing
deriving DecidableEq

structure ReplacementEntry where
  -- stands for what `_same_registration` compares, with the patch id
  payload : Nat
  latePolicy : LatePolicy
  status : PatchStatus
deriving DecidableEq

/-- What the coordinator and the interpreter hold of a name. -/
structure ModuleState where
  replacement : Option ReplacementEntry := none
  -- the statuses of the callbacks, in the order of registration
  callbacks : List PatchStatus := []
  bound : Option ModuleObject := none
  load : Option LoadPhase := none
  -- whether the load in progress goes through `_PostLoadLoader`
  postLoad : Bool := false
deriving DecidableEq

namespace ModuleState

/-- `_module_is_initializing` of the module that is bound. -/
def initializing (m : ModuleState) : Bool := m.bound = some .canonical && m.load = some .executing

/-- The name is bound to a module that is not initializing. -/
def loaded (m : ModuleState) : Bool := m.bound.isSome && !m.initializing

/-! ## Callbacks -/

def callbackStatus : CallbackOutcome → PatchStatus
  | .returns => .applied
  | .unavailable => .skipped
  | .raises => .failed

/-- `_apply_callback` of an armed entry; the state, and whether it raised. -/
def applyCallback (m : ModuleState) (i : Nat) (outcome : CallbackOutcome) : ModuleState × Bool :=
  ({ m with callbacks := m.callbacks.set i (callbackStatus outcome) }, outcome = .raises)

/-- `_module_loaded`: every armed callback runs, and the first error is raised. -/
def moduleLoaded (m : ModuleState) (outcomes : Nat → CallbackOutcome) : ModuleState × Bool :=
  let run := fun (i : Nat) (status : PatchStatus) => if status = .armed then callbackStatus (outcomes i) else status
  ({ m with callbacks := m.callbacks.mapIdx run },
    (List.range m.callbacks.length).any fun i => m.callbacks[i]? = some .armed && outcomes i = .raises)

/-- `_module_load_failed` -/
def moduleLoadFailed (m : ModuleState) : ModuleState :=
  { m with callbacks := m.callbacks.map fun status => if status = .armed then .failed else status }

/-! ## Loaders -/

inductive SpecResult
  | blocked
  | replacement
  | postLoad
  | canonical

def statuses (m : ModuleState) : List PatchStatus := m.replacement.toList.map (·.status) ++ m.callbacks

def activeReplacement (m : ModuleState) : Option ReplacementEntry :=
  m.replacement.filter fun e => e.status = .armed || e.status = .applied

def findSpec (m : ModuleState) (reload : Bool) : SpecResult :=
  if reload && m.statuses.contains .applied then .blocked
  else if m.statuses.contains .applying then .blocked
  else if m.statuses.contains .failed then .blocked
  else if m.activeReplacement.isSome then .replacement
  else if m.callbacks.contains .armed then .postLoad
  else .canonical

def setStatus (m : ModuleState) (status : PatchStatus) : ModuleState :=
  { m with replacement := m.replacement.map fun e => { e with status } }

/-- `_replace_loaded_module`, with what becomes of the payload; the state, and whether it raised. -/
def replaceLoadedModule (m : ModuleState) (resolves : Bool) (outcomes : Nat → CallbackOutcome) : ModuleState × Bool :=
  match m.replacement with
  | some e =>
    match e.status with
    | .armed =>
      if resolves then { m.setStatus .applied with bound := some .replacement }.moduleLoaded outcomes
      else (m.setStatus .failed, true)
    -- `begin` returns false
    | .applied => (m, false)
    | .skipped => (m, false)
    | .failed => (m, true)
    | .applying => (m, true)
  | none => (m, false)

/-- The body of the loop of `install`. -/
def installModule (m : ModuleState) (resolves : Bool) (outcomes : Nat → CallbackOutcome) : ModuleState × Bool :=
  if m.loaded then
    match m.activeReplacement with
    | some e =>
      match e.latePolicy with
      | .fail => (if e.status = .armed then m.setStatus .failed else m, true)
      | .replace => m.replaceLoadedModule resolves outcomes
    | none => m.moduleLoaded outcomes
  else (m, false)

/-- An import through `_ReplacementLoader`: `_create_replacement` and `_replacement_loaded`. -/
def importReplacement (m : ModuleState) (resolves : Bool) (outcomes : Nat → CallbackOutcome) : ModuleState :=
  if m.replacement.any (·.status = .applied) || resolves then
    let (m, raised) := (m.setStatus .applied).moduleLoaded outcomes
    { m with bound := if raised then none else some .replacement }
  else m.setStatus .failed

/-- The end of a load: the loader returns, or raises and the name is unbound. -/
def endLoad (m : ModuleState) (returns : Bool) (outcomes : Nat → CallbackOutcome) : ModuleState :=
  let m := { m with load := none }
  if returns then
    if m.postLoad then
      let (m, raised) := m.moduleLoaded outcomes
      if raised then { m with bound := none } else m
    else m
  else { (if m.postLoad then m.moduleLoadFailed else m) with bound := none }

end ModuleState

/-! ## The process -/

structure ImportProcess where
  installed : Bool := false
  modules : String → ModuleState := fun _ => {}
  -- the keys of `_by_module`, and the callbacks of `_entries`
  byModule : List String := []
  callbacks : List (String × Nat) := []
  -- whether `install` has raised, and whether a reload has put the guard on a canonical module
  installRaised : Bool := false
  guardOnCanonical : Bool := false

/-- What the payloads do: whether a replacement resolves, and how the callbacks of a module end. -/
structure Payloads where
  resolves : Bool
  outcomes : Nat → CallbackOutcome

inductive ImportEvent
  | importModule (name : String) (p : Payloads)
  -- the module of a spec of another finder is created and bound, or its creation raises
  | bindModule (name : String) (created : Bool)
  | loadEnd (name : String) (returns : Bool) (p : Payloads)
  -- a callback of the module, or a new one where the index is free
  | registerCallback (name : String) (index : Nat) (p : Payloads)
  | registerReplacement (name : String) (payload : Nat) (latePolicy : LatePolicy) (p : Payloads)
  | install (p : String → Payloads)
  | drainReadyCallbacks (p : String → Payloads)
  | reload (name : String) (returns : Bool) (p : Payloads)
  | evict (name : String)

namespace ImportProcess

def setModule (s : ImportProcess) (name : String) (m : ModuleState) : ImportProcess :=
  { s with modules := Function.update s.modules name m }

def addName (s : ImportProcess) (name : String) : ImportProcess :=
  { s with byModule := if name ∈ s.byModule then s.byModule else s.byModule ++ [name] }

/-- The loop of `install`; it ends where a module raises. -/
def installLoop (p : String → Payloads) : ImportProcess → List String → ImportProcess
  | s, [] => s
  | s, name :: names =>
    let (m, raised) := (s.modules name).installModule (p name).resolves (p name).outcomes
    if raised then { s.setModule name m with installRaised := true } else installLoop p (s.setModule name m) names

def registerReplacement (s : ImportProcess) (name : String) (payload : Nat) (latePolicy : LatePolicy) (p : Payloads) :
    ImportProcess :=
  let m := s.modules name
  -- the same registration again returns or raises, another raises
  if m.replacement.isSome then s
  else
    let s := s.addName name
    let m := { m with replacement := some ⟨payload, latePolicy, .armed⟩ }
    if m.bound.isSome then
      match latePolicy with
      | .fail => s.setModule name (m.setStatus .failed)
      | .replace => s.setModule name (m.replaceLoadedModule p.resolves p.outcomes).1
    else s.setModule name m

def registerCallback (s : ImportProcess) (name : String) (index : Nat) (p : Payloads) : ImportProcess :=
  let m := s.modules name
  if index < m.callbacks.length then
    if m.loaded && m.callbacks[index]? = some .armed then
      s.setModule name (m.applyCallback index (p.outcomes index)).1
    else s
  else
    let s := { s.addName name with callbacks := s.callbacks ++ [(name, m.callbacks.length)] }
    let i := m.callbacks.length
    let m := { m with callbacks := m.callbacks ++ [PatchStatus.armed] }
    if m.loaded then s.setModule name (m.applyCallback i (p.outcomes i)).1 else s.setModule name m

/-- The loop of `drain_ready_callbacks`; it ends at a callback that has failed or raises. -/
def drainLoop (p : String → Payloads) : ImportProcess → List (String × Nat) → ImportProcess
  | s, [] => s
  | s, (name, i) :: entries =>
    let m := s.modules name
    if m.callbacks[i]? = some .failed then s
    else if m.callbacks[i]? = some .armed && m.loaded then
      let (m, raised) := m.applyCallback i ((p name).outcomes i)
      if raised then s.setModule name m else drainLoop p (s.setModule name m) entries
    else drainLoop p s entries

def findSpec (s : ImportProcess) (name : String) (reload : Bool) : ModuleState.SpecResult :=
  if s.installed then (s.modules name).findSpec reload else .canonical

/-- `exec_module` on a reload, into the module that is bound. -/
def reload (s : ImportProcess) (name : String) (object : ModuleObject) (returns : Bool) (p : Payloads) : ImportProcess :=
  let m := s.modules name
  match s.findSpec name true with
  | .blocked => s
  -- the record stays ARMED, and the guard is put on the module
  | .replacement =>
    { s.setModule name (m.moduleLoaded p.outcomes).1 with guardOnCanonical := s.guardOnCanonical || object = .canonical }
  | .postLoad => s.setModule name (if returns then (m.moduleLoaded p.outcomes).1 else m.moduleLoadFailed)
  | .canonical => s

def step (s : ImportProcess) : ImportEvent → Option ImportProcess
  | .importModule name p =>
    let m := s.modules name
    if m.bound.isSome then some s
    -- the module lock is held by the load in progress
    else if m.load.isSome then none
    else
      match s.findSpec name false with
      | .blocked => some s
      | .replacement => some (s.setModule name (m.importReplacement p.resolves p.outcomes))
      | .postLoad => some (s.setModule name { m with load := some .found, postLoad := true })
      | .canonical => some (s.setModule name { m with load := some .found, postLoad := false })
  | .bindModule name created =>
    let m := s.modules name
    if m.load = some .found then
      some (s.setModule name
        (if created then { m with bound := some .canonical, load := some .executing } else { m with load := none }))
    else none
  | .loadEnd name returns p =>
    let m := s.modules name
    if m.load = some .executing then some (s.setModule name (m.endLoad returns p.outcomes)) else none
  | .registerCallback name index p => some (s.registerCallback name index p)
  | .registerReplacement name payload latePolicy p => some (s.registerReplacement name payload latePolicy p)
  | .install p => some (if s.installed then s else installLoop p { s with installed := true } s.byModule)
  | .drainReadyCallbacks p => some (drainLoop p s s.callbacks)
  | .reload name returns p =>
    let m := s.modules name
    match m.bound with
    | some object => if m.load.isSome then none else some (s.reload name object returns p)
    | none => some s
  | .evict name =>
    let m := s.modules name
    if m.load.isSome then none else some (s.setModule name { m with bound := none })

end ImportProcess

end VllmHcu.Patch
