import Mathlib.Data.List.Basic
import Mathlib.Data.List.Infix
import Sharko.Library.Runs

/-! Asynchronous `XMLHttpRequest`. A method body is the list of what it does; while the handlers
of an event run, the rest of the body that fired it waits on the stack. -/

namespace Sharko.Script.Xhr

open Library

inductive ReadyState where
  | unsent
  | opened
  | headers
  | loading
  | done
  deriving DecidableEq

def ReadyState.code : ReadyState → Nat
  | unsent => 0
  | opened => 1
  | headers => 2
  | loading => 3
  | done => 4

inductive Name where
  | readystatechange
  | loadstart
  | progress
  | load
  | error
  | abort
  | timeout
  | loadend
  deriving DecidableEq

namespace Name

def terminal : Name → Bool
  | load | error | abort | timeout => true
  | _ => false

def closing (name : Name) : Bool := name.terminal || name == loadend

end Name

inductive Instr where
  | fire (name : Name)
  | fireUpload (name : Name)
  | check
  | ready (state : ReadyState)
  | unsend
  | offer
  /-- Starts the fetch and its timeout, unless the handlers so far have ended the request. -/
  | fetch
  | reset
  deriving DecidableEq

def sending : List Instr := [.fire .loadstart,.offer,.fetch]

def completing : List Instr :=
  [.fireUpload .progress,.fireUpload .load,.fireUpload .loadend,
    .ready .headers,.fire .readystatechange,.check,
    .ready .loading,.fire .readystatechange,.check,
    .fire .progress,.check,
    .ready .done,.unsend,.fire .readystatechange,.check,
    .fire .load,.fire .loadend]

def requestError (kind : Name) : List Instr :=
  [.ready .done,.unsend,.fire .readystatechange,.fireUpload kind,.fireUpload .loadend,
    .fire kind,.fire .loadend]

def aborting : List Instr :=
  [.ready .done,.unsend,.fire .readystatechange,.fire .abort,.fire .loadend]

/-- The generation a body was called in, the request its events are of, and the `bytes !== null`
and `uploadListeners` of `send`. -/
structure Call where
  live : Nat
  request : Nat
  body : Bool := false
  uploadListeners : Bool := false
  deriving DecidableEq

structure Frame extends Call where
  rest : List Instr
  deriving DecidableEq

/-- What is seen of the object, newest first. `opened` and `aborted` are the calls, with the
generation they have ended. -/
inductive Entry where
  | sent (request : Nat)
  | opened (ended : Nat)
  | aborted (ended : Nat)
  | fired (live request : Nat) (upload : Bool) (name : Name)
  | changed (live request : Nat) (state : ReadyState)
  | reset (live : Nat)
  deriving DecidableEq

/-- A fetch that is still to call back; without a `reqId` it cannot be cancelled. -/
structure Pending where
  gen : Nat
  uploadListeners : Bool
  reqId : Option Nat
  deriving DecidableEq

structure Timer where
  gen : Nat
  uploadListeners : Bool
  deriving DecidableEq

structure Object where
  state : ReadyState := .unsent
  send : Bool := false
  gen : Nat := 0
  reqId : Option Nat := none
  nextReqId : Nat := 1
  timer : Option Timer := none
  pending : List Pending := []
  stack : List Frame := []
  log : List Entry := []
  deriving DecidableEq

/-- `blob:` and `data:` URLs are answered by a task; `N.fetch` may refuse. -/
inductive Route where
  | task
  | native
  | refused
  deriving DecidableEq

/-- What `send` reads after its first handlers: listeners, the timeout attribute, the URL. -/
structure Reads where
  uploadListeners : Bool := false
  timeout : Bool := false
  route : Route := .native
  deriving DecidableEq

namespace Object

variable (s : Object)

def dispatch (call : Call) (upload : Bool) (name : Name) (rest : List Instr) : Object :=
  { s with
    stack := { call with rest } :: s.stack
    log := .fired call.live call.request upload name :: s.log }

def setReady (call : Call) (state : ReadyState) : Object :=
  { s with state,log := .changed call.live call.request state :: s.log }

def terminate : Object :=
  { s with
    pending := s.pending.filter fun p => p.reqId = none ∨ p.reqId ≠ s.reqId
    reqId := none
    timer := none }

def startFetch (reads : Reads) (call : Call) : Object :=
  { s with
    reqId := if reads.route = .task then s.reqId else some s.nextReqId
    nextReqId := if reads.route = .task then s.nextReqId else s.nextReqId + 1
    pending := s.pending ++
      [⟨call.live,call.uploadListeners,if reads.route = .native then some s.nextReqId else none⟩]
    timer := if reads.timeout then some ⟨call.live,call.uploadListeners⟩ else s.timer }

/-- Carries a body on to its next event, or to its end. -/
def proceed (reads : Reads) : Call → List Instr → Object → Object
  | _,[],s => s
  | call,.fire name :: rest,s => s.dispatch call false name rest
  | call,.fireUpload name :: rest,s =>
    if call.uploadListeners then s.dispatch call true name rest else proceed reads call rest s
  | call,.check :: rest,s => if call.live ≠ s.gen then s else proceed reads call rest s
  | call,.ready state :: rest,s => proceed reads call rest (s.setReady call state)
  | call,.unsend :: rest,s => proceed reads call rest { s with send := false }
  | call,.offer :: rest,s =>
    if call.body && reads.uploadListeners then
      s.dispatch { call with uploadListeners := true } true .loadstart rest
    else proceed reads { call with uploadListeners := false } rest s
  | call,.fetch :: rest,s =>
    if s.state ≠ .opened ∨ s.send = false ∨ call.live ≠ s.gen then s
    else proceed reads call rest (s.startFetch reads call)
  | call,.reset :: rest,s =>
    if s.state = .done then
      proceed reads call rest { s with state := .unsent,log := .reset call.live :: s.log }
    else proceed reads call rest s

def run (call : Call) (body : List Instr) : Object := proceed {} call body s

def inFlight : Prop :=
  (s.state = .opened ∧ s.send = true) ∨ s.state = .headers ∨ s.state = .loading

instance : Decidable s.inFlight := by
  unfold inFlight
  infer_instance

def open_ : Object :=
  let next := { s.terminate with gen := s.gen + 1,send := false,log := .opened s.gen :: s.log }
  if s.state = .opened then next
  else next.run { live := s.gen + 1,request := s.gen + 1 } [.ready .opened,.fire .readystatechange]

/-- Throws, and does nothing, unless the object is `OPENED` and not sent. -/
def send_ (body : Bool) : Object :=
  if s.state ≠ .opened ∨ s.send = true then s
  else
    { s with send := true,log := .sent s.gen :: s.log }.run
      { live := s.gen,request := s.gen,body } sending

def abort : Object :=
  let next := { s.terminate with gen := s.gen + 1,log := .aborted s.gen :: s.log }
  next.run { live := s.gen + 1,request := s.gen }
    ((if s.inFlight then aborting else []) ++ [.reset])

def complete (p : Pending) (success : Bool) : Object :=
  if p.gen ≠ s.gen ∨ s.send = false then s
  else
    { s with timer := none }.run
      { live := p.gen,request := p.gen,uploadListeners := p.uploadListeners }
      (if success then completing else requestError .error)

def onTimeout (t : Timer) : Object :=
  if t.gen ≠ s.gen ∨ s.send = false then s
  else
    s.terminate.run { live := t.gen,request := t.gen,uploadListeners := t.uploadListeners }
      (requestError .timeout)

def onProgress (p : Pending) (upload : Bool) : Object :=
  if p.gen ≠ s.gen ∨ s.send = false then s
  else
    s.run { live := p.gen,request := p.gen,uploadListeners := p.uploadListeners }
      [if upload then .fireUpload .progress else .fire .progress]

end Object

/-- The first three are calls of the page, made by a handler or by a task of its own. -/
inductive Action where
  | open_
  | send (body : Bool)
  | abort
  /-- The handlers of the newest event have all run. -/
  | return_ (reads : Reads)
  | complete (i : Nat) (success : Bool)
  | timeout
  | progress (i : Nat) (upload : Bool)
  deriving DecidableEq

namespace Object

/-- A call back is a task, so it waits until no handler runs. -/
def step (s : Object) : Action → Option Object
  | .open_ => some s.open_
  | .send body => some (s.send_ body)
  | .abort => some s.abort
  | .return_ reads =>
    match s.stack with
    | [] => none
    | f :: rest => some (proceed reads f.toCall f.rest { s with stack := rest })
  | .complete i success =>
    match s.stack,s.pending[i]? with
    | [],some p => some ({ s with pending := s.pending.eraseIdx i }.complete p success)
    | _,_ => none
  | .timeout =>
    match s.stack,s.timer with
    | [],some t => some ({ s with timer := none }.onTimeout t)
    | _,_ => none
  | .progress i upload =>
    match s.stack,s.pending[i]? with
    | [],some p => if p.reqId = none then none else some (s.onProgress p upload)
    | _,_ => none

end Object

end Sharko.Script.Xhr
