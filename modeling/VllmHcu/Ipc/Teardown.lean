import Mathlib.Logic.Function.Basic
import VllmHcu.Lib.Run

/-!
# Construction and teardown of the IPC buffers

The constructor allocates two buffers, exchanges their handles, opens those of
the peers and initialises the buffers; `close` closes the mappings and then frees
the buffers. The ranks report to each other in status exchanges, collectives of
the group that are matched by their order. An event is one local operation with
its outcome, or one end of an exchange.
-/

namespace VllmHcu.Ipc

/-! ## State -/

inductive Buf
  | data
  | flags

/-- A mapping of the exporter's buffer `exported`, opened by the importer at `pointer`. -/
structure Mapping where
  pointer : Nat
  importer : Nat
  exporter : Nat
  exported : Nat
deriving DecidableEq

/-- What a status exchange is about. -/
inductive Stage
  | allocating (b : Buf)
  | opening (b : Buf)
  | initializing
  | quiescing
  | closing

/-- A handle names its exporter and the exported buffer. -/
abbrev Handle := Nat × Nat

/-- What a rank contributes to a status exchange. -/
inductive Payload
  | handle (result : Except String Handle)
  | status (error : Option String)

/-- The body of the constructor, the `close` of its handler, or an explicit `close`. -/
inductive Mode
  | construct
  | cleanup
  | close
deriving DecidableEq

/-- Where a rank is; the loops carry what is left and what failed. -/
inductive Pc
  | fresh
  | allocate (b : Buf)
  | exchange (stage : Stage) (payload : Payload) (sent : Bool)
  | openHandles (b : Buf) (todo : List Handle)
  | initBuffers
  | idle
  | synchronize
  | closeMappings (todo remaining : List Mapping) (error : Option String)
  | freeOwned (todo remaining : List Nat) (error : Option String)
  | raised

/-- One rank. The history fields are what it has sent, how many exchanges have returned to it and how often `close`
has been called. -/
structure Endpoint where
  pc : Pc := .fresh
  mode : Mode := .construct
  disabled : Bool := true
  ownedBuffers : List Nat := []
  importedBuffers : List Mapping := []
  needsCoordinatedClose : Bool := false
  collectiveFailed : Bool := false
  sent : List (Stage × Payload) := []
  received : Nat := 0
  closes : Nat := 0

/-- All ranks and the device: every buffer allocated and freed and every mapping opened and closed so far. -/
structure Session where
  ranks : Nat → Endpoint := fun _ => {}
  next : Nat := 0
  allocated : List (Nat × Nat) := []
  freed : List (Nat × Nat) := []
  opened : List Mapping := []
  closed : List Mapping := []

/-! ## Control flow of one rank -/

namespace Endpoint

/-- `close` returns or raises. -/
def endCall (e : Endpoint) : Endpoint :=
  match e.mode with
  | .close => { e with pc := .idle }
  | .construct | .cleanup => { e with pc := .raised }

/-- The loop over `_owned_buffers`. -/
def nextFree (e : Endpoint) (todo remaining : List Nat) (error : Option String) : Endpoint :=
  match todo with
  | [] => { e with ownedBuffers := remaining }.endCall
  | _ => { e with pc := .freeOwned todo remaining error }

def beginClose (e : Endpoint) : Endpoint :=
  let e := { e with disabled := true }
  if e.needsCoordinatedClose then
    if e.collectiveFailed then e.endCall else { e with pc := .synchronize }
  else e.nextFree e.ownedBuffers [] none

/-- An exception: out of `close`, or into the handler of the constructor. -/
def raise (e : Endpoint) : Endpoint :=
  match e.mode with
  | .construct => if e.collectiveFailed then { e with pc := .raised } else { e with mode := .cleanup }.beginClose
  | .cleanup | .close => e.endCall

/-- The loop over `_imported_buffers`. -/
def nextUnmap (e : Endpoint) (todo remaining : List Mapping) (error : Option String) : Endpoint :=
  match todo with
  | [] => { e with importedBuffers := remaining, pc := .exchange .closing (.status error) false }
  | _ => { e with pc := .closeMappings todo remaining error }

/-- The loop over the peers' handles. -/
def nextOpen (e : Endpoint) (b : Buf) (todo : List Handle) : Endpoint :=
  match todo with
  | [] => { e with pc := .exchange (.opening b) (.status none) false }
  | _ => { e with pc := .openHandles b todo }

end Endpoint

/-- A payload that counts as a failure where a status is expected. -/
def Payload.badStatus : Payload → Bool
  | .status none => false
  | _ => true

def Payload.handle? : Payload → Option Handle
  | .handle (.ok h) => some h
  | _ => none

/-- What rank `r` does with the payloads of all ranks. -/
def Endpoint.afterExchange (e : Endpoint) (r : Nat) (stage : Stage) (payloads : List Payload) : Endpoint :=
  match stage with
  | .allocating b =>
    match payloads.mapM Payload.handle? with
    | none => e.raise
    | some handles => e.nextOpen b ((handles.zipIdx.filter fun h => h.2 ≠ r).map Prod.fst)
  | .opening b =>
    if payloads.any Payload.badStatus then e.raise
    else match b with
      | .data => { e with pc := .allocate .flags }
      | .flags => { e with pc := .initBuffers }
  | .initializing =>
    if payloads.any Payload.badStatus then e.raise else { e with disabled := false, pc := .idle }
  | .quiescing =>
    if payloads.any Payload.badStatus then e.raise else e.nextUnmap e.importedBuffers [] none
  | .closing =>
    if payloads.any Payload.badStatus then e.raise
    else { e with needsCoordinatedClose := false }.nextFree e.ownedBuffers [] none

/-! ## Runs -/

/-- The calls and the operations of a rank; `error` is the exception that an operation raises. -/
inductive SessionEvent
  | construct (r : Nat)
  | close (r : Nat)
  | allocate (r : Nat) (error : Option String)
  | openHandle (r : Nat) (error : Option String)
  | initBuffers (r : Nat) (error : Option String)
  | synchronize (r : Nat) (error : Option String)
  | closeMapping (r : Nat) (error : Option String)
  | freeBuffer (r : Nat) (error : Option String)
  | send (r : Nat)
  | receive (r : Nat)
  | exchangeRaises (r : Nat)

def SessionEvent.rank : SessionEvent → Nat
  | .construct r | .close r | .send r | .receive r | .exchangeRaises r => r
  | .allocate r _ | .openHandle r _ | .initBuffers r _ | .synchronize r _ | .closeMapping r _ | .freeBuffer r _ => r

namespace Session

def set (s : Session) (r : Nat) (e : Endpoint) : Session := { s with ranks := Function.update s.ranks r e }

/-- The payloads of exchange `m`. -/
def gathered (world : Nat) (s : Session) (m : Nat) : List Payload :=
  (List.range world).filterMap fun r => ((s.ranks r).sent[m]?).map Prod.snd

def construct (s : Session) (r : Nat) : Option Session :=
  let e := s.ranks r
  match e.pc with
  | .fresh => some (s.set r { e with needsCoordinatedClose := true, pc := .allocate .data })
  | _ => none

def close (s : Session) (r : Nat) : Option Session :=
  let e := s.ranks r
  match e.pc with
  | .idle => some (s.set r { e with mode := .close, closes := e.closes + 1 }.beginClose)
  | _ => none

def allocate (s : Session) (r : Nat) (error : Option String) : Option Session :=
  let e := s.ranks r
  match e.pc with
  | .allocate b =>
    match error with
    | none => some ({ s with next := s.next + 1, allocated := s.allocated ++ [(r, s.next)] }.set r { e with
        ownedBuffers := e.ownedBuffers ++ [s.next]
        pc := .exchange (.allocating b) (.handle (.ok (r, s.next))) false })
    | some msg => some (s.set r { e with pc := .exchange (.allocating b) (.handle (.error msg)) false })
  | _ => none

def openHandle (s : Session) (r : Nat) (error : Option String) : Option Session :=
  let e := s.ranks r
  match e.pc with
  | .openHandles b (h :: todo) =>
    match error with
    | none =>
      let imported : Mapping := ⟨s.next, r, h.1, h.2⟩
      some ({ s with next := s.next + 1, opened := s.opened ++ [imported] }.set r
        ({ e with importedBuffers := e.importedBuffers ++ [imported] }.nextOpen b todo))
    | some msg => some (s.set r { e with pc := .exchange (.opening b) (.status (some msg)) false })
  | _ => none

def initBuffers (s : Session) (r : Nat) (error : Option String) : Option Session :=
  let e := s.ranks r
  match e.pc with
  | .initBuffers => some (s.set r { e with pc := .exchange .initializing (.status error) false })
  | _ => none

def synchronize (s : Session) (r : Nat) (error : Option String) : Option Session :=
  let e := s.ranks r
  match e.pc with
  | .synchronize => some (s.set r { e with pc := .exchange .quiescing (.status error) false })
  | _ => none

def closeMapping (s : Session) (r : Nat) (error : Option String) : Option Session :=
  let e := s.ranks r
  match e.pc with
  | .closeMappings (m :: todo) remaining first =>
    match error with
    | none => some ({ s with closed := s.closed ++ [m] }.set r (e.nextUnmap todo remaining first))
    | some msg => some (s.set r (e.nextUnmap todo (remaining ++ [m]) (first.or (some msg))))
  | _ => none

def freeBuffer (s : Session) (r : Nat) (error : Option String) : Option Session :=
  let e := s.ranks r
  match e.pc with
  | .freeOwned (b :: todo) remaining first =>
    match error with
    | none => some ({ s with freed := s.freed ++ [(r, b)] }.set r (e.nextFree todo remaining first))
    | some msg => some (s.set r (e.nextFree todo (remaining ++ [b]) (first.or (some msg))))
  | _ => none

def send (s : Session) (r : Nat) : Option Session :=
  let e := s.ranks r
  match e.pc with
  | .exchange stage payload false =>
    some (s.set r { e with sent := e.sent ++ [(stage, payload)], pc := .exchange stage payload true })
  | _ => none

/-- An exchange returns when every rank has contributed to it. -/
def receive (world : Nat) (s : Session) (r : Nat) : Option Session :=
  let e := s.ranks r
  match e.pc with
  | .exchange stage _ true =>
    if ∀ r' < world, e.received < (s.ranks r').sent.length then
      some (s.set r ({ e with received := e.received + 1 }.afterExchange r stage (s.gathered world e.received)))
    else none
  | _ => none

/-- `all_gather_object` raises, whether or not the payload has reached the peers. -/
def exchangeRaises (s : Session) (r : Nat) : Option Session :=
  let e := s.ranks r
  match e.pc with
  | .exchange .. => some (s.set r { e with collectiveFailed := true }.raise)
  | _ => none

def perform (world : Nat) (s : Session) : SessionEvent → Option Session
  | .construct r => s.construct r
  | .close r => s.close r
  | .allocate r error => s.allocate r error
  | .openHandle r error => s.openHandle r error
  | .initBuffers r error => s.initBuffers r error
  | .synchronize r error => s.synchronize r error
  | .closeMapping r error => s.closeMapping r error
  | .freeBuffer r error => s.freeBuffer r error
  | .send r => s.send r
  | .receive r => s.receive world r
  | .exchangeRaises r => s.exchangeRaises r

def step (world : Nat) (s : Session) (ev : SessionEvent) : Option Session :=
  if ev.rank < world then s.perform world ev else none

end Session

end VllmHcu.Ipc
