import Sharko.Library.Runs
import Sharko.Netstack.WebSocket
import Mathlib.Data.Finset.Basic
import Mathlib.Data.Multiset.Count
import Mathlib.Logic.Function.Basic

/-! The client of the network process (`IpcBackend` of `crates/netstack/src/client.rs`).
Any number of threads are inside `fetch`, `ws_open` and `abort` while the reader thread
delivers messages; an action is one critical section of one of them. A registered
callback is named by the id of the call that registered it. What `IpcSender::send`
returns is up to the action. -/

namespace Sharko.Netstack.Client
open Library
open WebSocket (WsEvent)

structure NetError where
  code : String
  detail : String

def NetError.toString (e : NetError) : String :=
  if e.detail = "" then "net::" ++ e.code else "net::" ++ e.code ++ " (" ++ e.detail ++ ")"

structure NetResponse where
  id : Nat
  status : Nat
  url : String
  error : Option String
deriving DecidableEq

def errorResponse (id : Nat) (url : String) (e : NetError) : NetResponse :=
  ⟨id,if e.code = "ERR_CACHE_MISS" then 504 else 0,url,some e.toString⟩

def disconnectedResponse (id : Nat) : NetResponse :=
  errorResponse id "" ⟨"ERR_FAILED","network service disconnected"⟩

def tooBigResponse (id : Nat) (url : String) : NetResponse :=
  errorResponse id url ⟨"ERR_FILE_TOO_BIG","request body too large"⟩

def disconnectedEvents : List WsEvent :=
  [.error "network service disconnected",.closed 1006 "" false]

structure Progress where
  id : Nat
  loaded : Nat
  total : Nat
  upload : Bool
deriving DecidableEq

inductive Message where
  | response (response : NetResponse)
  | progress (report : Progress)
  | ws (id : Nat) (event : WsEvent)
deriving DecidableEq

/-- What `IpcSender::send` returned; too large is `InvalidInput`. -/
inductive Sent where
  | ok
  | tooLarge
  | failed
deriving DecidableEq

/-- Where a call of `fetch_inner` is, named by what it did last. -/
inductive FetchStage where
  | started
  | connected
  | pending
  | registered
  | tooLarge
  | refused
  | sent (ok : Bool)
  | unanswered
  | returned
deriving DecidableEq

/-- Where a call of `ws_open` is. -/
inductive SocketStage where
  | started
  | connected
  | registered
  | unsent
  | returned
deriving DecidableEq

inductive Call where
  | none
  | fetch (url : String) (progress : Bool) (stage : FetchStage)
  | socket (stage : SocketStage)
deriving DecidableEq

inductive Reader where
  | idle
  | response (response : NetResponse)
  /-- The progress callback is cloned. `overtaken` notes that the completion callback of the
  fetch has run, or an abort of it has returned, since. -/
  | report (report : Progress) (overtaken : Bool)
  | lost
  | progressCleared
  | socketsDrained
  | done
deriving DecidableEq

inductive Event where
  | done (response : NetResponse)
  | progress (report : Progress)
  | removed (id : Nat)
  | aborted (id : Nat)
deriving DecidableEq

structure IpcShared where
  nextId : Nat
  calls : Nat → Call
  pending : Finset Nat
  progress : Finset Nat
  sockets : Finset Nat
  connected : Bool
  reader : Reader
  aborting : Multiset Nat
  leaving : Multiset Nat
  jobs : Multiset NetResponse
  requested : Finset Nat
  received : List NetResponse
  trace : List Event
  told : Nat → List WsEvent

inductive Action where
  | fetch (url : String) (progress : Bool)
  | wsOpen
  | advance (id : Nat) (sent : Sent)
  | abort (id : Nat)
  | abortPending (id : Nat)
  | abortReturns (id : Nat)
  | wsClose (id : Nat)
  | read (message : Option Message)
  | readerAdvances
  | run (response : NetResponse)

namespace IpcShared

def new : IpcShared where
  nextId := 1
  calls := fun _ => .none
  pending := ∅
  progress := ∅
  sockets := ∅
  connected := true
  reader := .idle
  aborting := 0
  leaving := 0
  jobs := 0
  requested := ∅
  received := []
  trace := []
  told := fun _ => []

def callbacksRun (s : IpcShared) (response : NetResponse) : IpcShared := {s with jobs := response ::ₘ s.jobs}

def answer (s : IpcShared) (response : NetResponse) : IpcShared :=
  if response.id ∈ s.pending then
    {s with pending := s.pending.erase response.id}.callbacksRun response
  else s

def tell (s : IpcShared) (id : Nat) (events : List WsEvent) : IpcShared :=
  {s with told := Function.update s.told id (s.told id ++ events)}

def fetchInner (s : IpcShared) (id : Nat) (url : String) (progress : Bool) (sent : Sent) :
    FetchStage → Option (IpcShared × FetchStage)
  | .started =>
    if s.connected then some (s,.connected)
    else some (s.callbacksRun (disconnectedResponse id),.returned)
  | .connected => some ({s with pending := insert id s.pending},.pending)
  | .pending =>
    some (if progress then {s with progress := insert id s.progress} else s,.registered)
  | .registered =>
    match sent with
    | .ok => some ({s with requested := insert id s.requested},.sent true)
    | .tooLarge => some (s,.tooLarge)
    | .failed => some (s,.sent false)
  | .tooLarge => some ({s with progress := s.progress.erase id},.refused)
  | .refused => some (s.answer (tooBigResponse id url),.returned)
  | .sent ok =>
    -- Also covers a disconnect that raced with the registration.
    if ok && s.connected then some (s,.returned) else some (s,.unanswered)
  | .unanswered => some (s.answer (disconnectedResponse id),.returned)
  | .returned => none

def wsOpen (s : IpcShared) (id : Nat) (sent : Sent) : SocketStage → Option (IpcShared × SocketStage)
  | .started =>
    if s.connected then some (s,.connected) else some (s.tell id disconnectedEvents,.returned)
  | .connected => some ({s with sockets := insert id s.sockets},.registered)
  | .registered => if sent = .ok then some (s,.returned) else some (s,.unsent)
  | .unsent =>
    some (if id ∈ s.sockets then
        {s with sockets := s.sockets.erase id}.tell id disconnectedEvents
      else s,.returned)
  | .returned => none

def onMessage (s : IpcShared) : Option Message → IpcShared
  | some (.response response) => {s with
      progress := s.progress.erase response.id
      reader := .response response
      received := response :: s.received}
  | some (.progress report) =>
    if report.id ∈ s.progress then {s with reader := .report report false} else s
  | some (.ws id event) =>
    let heard := if id ∈ s.sockets then s.tell id [event] else s
    match event with
    | .closed _ _ _ => {heard with sockets := heard.sockets.erase id}
    | _ => heard
  | none => {s with connected := false, reader := .lost}

def readerAdvances (s : IpcShared) : Option IpcShared :=
  match s.reader with
  | .response response => some {s.answer response with reader := .idle}
  | .report report _ => some {s with reader := .idle, trace := .progress report :: s.trace}
  | .lost => some {s with progress := ∅, reader := .progressCleared}
  | .progressCleared =>
    some {s with
      sockets := ∅
      told := fun id => if id ∈ s.sockets then s.told id ++ disconnectedEvents else s.told id
      reader := .socketsDrained}
  | .socketsDrained =>
    some {s with
      pending := ∅
      jobs := s.jobs + s.pending.val.map disconnectedResponse
      reader := .done}
  | .idle => none
  | .done => none

def overtake (s : IpcShared) (id : Nat) : Reader :=
  match s.reader with
  | .report report overtaken => .report report (overtaken || report.id == id)
  | other => other

def step (s : IpcShared) : Action → Option IpcShared
  | .fetch url progress => some {s with
      nextId := s.nextId + 1
      calls := Function.update s.calls s.nextId (.fetch url progress .started)}
  | .wsOpen => some {s with
      nextId := s.nextId + 1
      calls := Function.update s.calls s.nextId (.socket .started)}
  | .advance id sent =>
    match s.calls id with
    | .fetch url progress stage =>
      (s.fetchInner id url progress sent stage).map fun (next,stage') =>
        {next with calls := Function.update s.calls id (.fetch url progress stage')}
    | .socket stage =>
      (s.wsOpen id sent stage).map fun (next,stage') =>
        {next with calls := Function.update s.calls id (.socket stage')}
    | .none => none
  | .abort id => some {s with progress := s.progress.erase id, aborting := id ::ₘ s.aborting}
  | .abortPending id =>
    if id ∉ s.aborting then none
    else if id ∈ s.pending then
      some {s with
        pending := s.pending.erase id
        aborting := s.aborting.erase id
        leaving := id ::ₘ s.leaving
        trace := .removed id :: s.trace}
    else some {s with aborting := s.aborting.erase id, leaving := id ::ₘ s.leaving}
  | .abortReturns id =>
    if id ∉ s.leaving then none
    else some {s with
      leaving := s.leaving.erase id
      reader := s.overtake id
      trace := .aborted id :: s.trace}
  | .wsClose _ => some s
  | .read message => if s.reader = .idle then some (s.onMessage message) else none
  | .readerAdvances => s.readerAdvances
  | .run response =>
    if response ∉ s.jobs then none
    else some {s with
      jobs := s.jobs.erase response
      reader := s.overtake response.id
      trace := .done response :: s.trace}

theorem advance_cases {s s' : IpcShared} {id : Nat} {sent : Sent} (taken : s.step (.advance id sent) = some s') :
    (∃ url progress stage next stage', s.calls id = .fetch url progress stage ∧
      s.fetchInner id url progress sent stage = some (next,stage') ∧
      s' = {next with calls := Function.update s.calls id (.fetch url progress stage')}) ∨
    (∃ stage next stage', s.calls id = .socket stage ∧ s.wsOpen id sent stage = some (next,stage') ∧
      s' = {next with calls := Function.update s.calls id (.socket stage')}) := by
  cases call : s.calls id with
  | none => simp [step,call] at taken
  | fetch url progress stage =>
    simp only [step,call,Option.map_eq_some_iff] at taken
    obtain ⟨⟨next,stage'⟩,moved,rfl⟩ := taken
    exact .inl ⟨url,progress,stage,next,stage',rfl,moved,rfl⟩
  | socket stage =>
    simp only [step,call,Option.map_eq_some_iff] at taken
    obtain ⟨⟨next,stage'⟩,moved,rfl⟩ := taken
    exact .inr ⟨stage,next,stage',rfl,moved,rfl⟩

end IpcShared

end Sharko.Netstack.Client
