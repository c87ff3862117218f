import Sharko.Library.Runs
import Sharko.Library.Text

/-! One WebSocket of the network process (`crates/netstack/src/websocket.rs`): the
opening handshake, then the loop that selects between incoming frames, commands of
the page and the deadline of the closing handshake. Which of them is ready, and
whether a write succeeds, is up to the action. -/

namespace Sharko.Netstack.WebSocket
open Library

inductive WsData where
  | text (text : String)
  | binary (bytes : List UInt8)
deriving DecidableEq

def WsData.len : WsData → Nat
  | .text t => (Text.utf8 t).length
  | .binary b => b.length

inductive WsEvent where
  | opened (protocol extensions : String)
  | message (data : WsData)
  | sent (len : Nat)
  | error (message : String)
  | closed (code : UInt16) (reason : String) (clean : Bool)
deriving DecidableEq

structure CloseFrame where
  code : UInt16
  reason : String
deriving DecidableEq

inductive Stage where
  | handshake
  /-- `closing` is set once our Close frame is sent. -/
  | running (closing : Option (UInt16 × String))
  | ended
deriving DecidableEq

structure Socket where
  stage : Stage
  events : List WsEvent
deriving DecidableEq

inductive Incoming where
  | text (text : String)
  | binary (bytes : List UInt8)
  | control
  | close (frame : Option CloseFrame)
  | finished
  | error (message : String)
deriving DecidableEq

inductive Command where
  | send (data : WsData) (failure : Option String)
  | close (code : Option UInt16) (reason : String)
  | dropped
deriving DecidableEq

inductive Action where
  | shaken (result : Except String (String × String))
  | incoming (frame : Incoming)
  | command (command : Command)
  | deadline

def closeCode : Option CloseFrame → UInt16 × String
  | some f => (f.code,f.reason)
  | none => (1005,"")

namespace Socket

def start : Socket := ⟨.handshake,[]⟩

def emit (s : Socket) (event : WsEvent) : Socket := {s with events := s.events ++ [event]}

def finish (s : Socket) : Socket := {s with stage := .ended}

def close (s : Socket) (code : UInt16) (reason : String) (clean : Bool) : Socket :=
  (s.emit (.closed code reason clean)).finish

def fail (s : Socket) (message : String) : Socket := (s.emit (.error message)).close 1006 "" false

def receive (s : Socket) (closing : Option (UInt16 × String)) : Incoming → Socket
  | .text text => s.emit (.message (.text text))
  | .binary bytes => s.emit (.message (.binary bytes))
  | .control => s
  | .close frame =>
    let (code,reason) := match frame,closing with
      | none,some (code,reason) => (code,reason)
      | _,_ => closeCode frame
    s.close code reason true
  | .finished =>
    let (code,reason) := closing.getD (1006,"")
    s.close code reason closing.isSome
  | .error message => s.fail message

def perform (s : Socket) : Command → Socket
  | .send _ (some failure) => s.fail failure
  | .send data none => s.emit (.sent data.len)
  | .close code reason => {s with stage := .running (some (code.getD 1005,reason))}
  | .dropped => s.finish

def step (s : Socket) : Action → Option Socket
  | .shaken result =>
    match s.stage,result with
    | .handshake,.ok (protocol,extensions) =>
      some {s.emit (.opened protocol extensions) with stage := .running none}
    | .handshake,.error message => some (s.fail message)
    | _,_ => none
  | .incoming frame =>
    match s.stage with
    | .running closing => some (s.receive closing frame)
    | _ => none
  | .command c =>
    match s.stage,c with
    | .handshake,.send _ _ => some s
    | .handshake,_ => some (s.close 1006 "" false)
    | .running none,c => some (s.perform c)
    | _,_ => none
  | .deadline =>
    match s.stage with
    | .running (some (code,reason)) => some (s.close code reason false)
    | _ => none

end Socket

def Ending (events : List WsEvent) : Prop :=
  (∃ code reason clean, events = [.closed code reason clean]) ∨
    ∃ message code reason clean, events = [.error message,.closed code reason clean]

/-- An open socket has emitted `Open (Message | Sent)*`. -/
def Conversing (events : List WsEvent) : Prop :=
  ∃ protocol extensions middle, events = .opened protocol extensions :: middle ∧
    ∀ e ∈ middle, (∃ data, e = .message data) ∨ ∃ len, e = .sent len

/-- `(Error? Closed) | (Open (Message | Sent)* Error? Closed)` -/
def Word (events : List WsEvent) : Prop :=
  Ending events ∨ ∃ talk ending, events = talk ++ ending ∧ Conversing talk ∧ Ending ending

/-- What a socket has emitted is a word once it has ended, and can become one before. -/
def Socket.WellSpoken (s : Socket) : Prop :=
  match s.stage with
  | .handshake => s.events = []
  | .running _ => Conversing s.events
  | .ended => Word s.events

/-- The page does not drop its channel while the socket is open and not closing. -/
def Socket.Attended (s : Socket) (a : Action) : Prop :=
  ¬ (s.stage = .running none ∧ a = .command .dropped)

theorem Conversing.emit {events : List WsEvent} (talk : Conversing events) {e : WsEvent}
    (spoken : (∃ data, e = .message data) ∨ ∃ len, e = .sent len) : Conversing (events ++ [e]) := by
  obtain ⟨protocol,extensions,middle,rfl,all⟩ := talk
  refine ⟨protocol,extensions,middle ++ [e],rfl,?_⟩
  intro e' inside
  rcases List.mem_append.mp inside with old | new
  · exact all e' old
  · rw [List.mem_singleton.mp new]
    exact spoken

theorem Ending.last_closed {events : List WsEvent} (ending : Ending events) :
    ∃ code reason clean, events.getLast? = some (.closed code reason clean) := by
  rcases ending with ⟨code,reason,clean,rfl⟩ | ⟨message,code,reason,clean,rfl⟩
  · exact ⟨code,reason,clean,rfl⟩
  · exact ⟨code,reason,clean,rfl⟩

theorem Word.last_closed {events : List WsEvent} (word : Word events) :
    ∃ code reason clean, events.getLast? = some (.closed code reason clean) := by
  rcases word with ending | ⟨talk,ending,rfl,_,ends⟩
  · exact ending.last_closed
  · obtain ⟨code,reason,clean,last⟩ := ends.last_closed
    refine ⟨code,reason,clean,?_⟩
    rw [List.getLast?_append,last]
    rfl

theorem Conversing.not_word {events : List WsEvent} (talk : Conversing events) : ¬ Word events := by
  intro word
  obtain ⟨code,reason,clean,last⟩ := word.last_closed
  obtain ⟨protocol,extensions,middle,rfl,all⟩ := talk
  have inside := List.mem_of_getLast? last
  rcases List.mem_cons.mp inside with first | later
  · cases first
  · rcases all _ later with ⟨data,same⟩ | ⟨len,same⟩
    · cases same
    · cases same

namespace Socket
variable {s s' : Socket}

theorem close_wellSpoken (code : UInt16) (reason : String) (clean : Bool) {talk : List WsEvent}
    (events : s.events = talk) (said : talk = [] ∨ Conversing talk) :
    (s.close code reason clean).WellSpoken := by
  show Word (s.events ++ [.closed code reason clean])
  rcases said with nothing | conversed
  · exact .inl (.inl ⟨code,reason,clean,by rw [events,nothing]; rfl⟩)
  · exact .inr ⟨talk,_,by rw [events],conversed,.inl ⟨code,reason,clean,rfl⟩⟩

theorem fail_wellSpoken (message : String) {talk : List WsEvent} (events : s.events = talk)
    (said : talk = [] ∨ Conversing talk) : (s.fail message).WellSpoken := by
  show Word ((s.events ++ [.error message]) ++ [.closed 1006 "" false])
  have ending : Ending [.error message,.closed 1006 "" false] := .inr ⟨message,1006,"",false,rfl⟩
  rcases said with nothing | conversed
  · refine .inl ?_
    rw [events,nothing]
    exact ending
  · exact .inr ⟨talk,_,by rw [events,List.append_assoc]; rfl,conversed,ending⟩

theorem receive_wellSpoken {closing : Option (UInt16 × String)} (stage : s.stage = .running closing)
    (talk : Conversing s.events) (frame : Incoming) : (s.receive closing frame).WellSpoken := by
  have running : ∀ e, ((∃ data, e = .message data) ∨ ∃ len, e = .sent len) → (s.emit e).WellSpoken := by
    intro e spoken
    simp only [WellSpoken,emit,stage]
    exact talk.emit spoken
  cases frame with
  | text text => exact running _ (.inl ⟨_,rfl⟩)
  | binary bytes => exact running _ (.inl ⟨_,rfl⟩)
  | control =>
    simp only [receive,WellSpoken,stage]
    exact talk
  | close frame => exact close_wellSpoken _ _ _ rfl (.inr talk)
  | finished => exact close_wellSpoken _ _ _ rfl (.inr talk)
  | error message => exact fail_wellSpoken message rfl (.inr talk)

theorem perform_wellSpoken (stage : s.stage = .running none) (talk : Conversing s.events) (c : Command) :
    (s.perform c).WellSpoken ↔ c ≠ .dropped := by
  cases c with
  | send data failure =>
    refine iff_of_true ?_ (by simp)
    cases failure with
    | none =>
      simp only [perform,WellSpoken,emit,stage]
      exact talk.emit (.inr ⟨_,rfl⟩)
    | some failure => exact fail_wellSpoken failure rfl (.inr talk)
  | close code reason => exact iff_of_true talk (by simp)
  | dropped => exact iff_of_false talk.not_word (by simp)

theorem step_wellSpoken (ok : s.WellSpoken) {a : Action} (taken : s.step a = some s') :
    s'.WellSpoken ↔ s.Attended a := by
  cases stage : s.stage with
  | handshake =>
    have silent : s.events = [] := by
      simpa only [WellSpoken,stage] using ok
    have attended : s.Attended a := by
      rintro ⟨running,_⟩
      rw [stage] at running
      cases running
    refine iff_of_true ?_ attended
    cases a with
    | shaken result =>
      cases result with
      | ok accepted =>
        simp only [step,stage] at taken
        cases taken
        exact ⟨accepted.1,accepted.2,[],by simp [emit,silent],by simp⟩
      | error message =>
        simp only [step,stage] at taken
        cases taken
        exact fail_wellSpoken message silent (.inl rfl)
    | incoming frame => simp [step,stage] at taken
    | command c =>
      cases c with
      | send data failure =>
        simp only [step,stage] at taken
        cases taken
        exact ok
      | close code reason =>
        simp only [step,stage] at taken
        cases taken
        exact close_wellSpoken _ _ _ silent (.inl rfl)
      | dropped =>
        simp only [step,stage] at taken
        cases taken
        exact close_wellSpoken _ _ _ silent (.inl rfl)
    | deadline => simp [step,stage] at taken
  | running closing =>
    have talk : Conversing s.events := by
      simpa only [WellSpoken,stage] using ok
    cases a with
    | shaken result => simp [step,stage] at taken
    | incoming frame =>
      simp only [step,stage] at taken
      cases taken
      exact iff_of_true (receive_wellSpoken stage talk frame) (by simp [Attended])
    | command c =>
      cases closing with
      | none =>
        simp only [step,stage] at taken
        cases taken
        rw [perform_wellSpoken stage talk c]
        simp [Attended,stage]
      | some closing => simp [step,stage] at taken
    | deadline =>
      cases closing with
      | none => simp [step,stage] at taken
      | some closing =>
        simp only [step,stage] at taken
        cases taken
        exact iff_of_true (close_wellSpoken _ _ _ rfl (.inr talk)) (by simp [Attended])
  | ended => cases a <;> simp [step,stage] at taken

end Socket

/-- The events of a socket keep to the language all along a run exactly if the page
never drops its channel while the socket is open and not closing. -/
theorem well_spoken_iff (actions : List Action) :
    Runs.Always Socket.step Socket.WellSpoken Socket.start actions ↔
      Runs.Guarded Socket.step Socket.Attended Socket.start actions := by
  have kept : ∀ s a s', True → Socket.WellSpoken s → s.step a = some s' →
      True ∧ (s'.WellSpoken ↔ s.Attended a) :=
    fun s a s' _ ok taken => ⟨trivial,Socket.step_wellSpoken ok taken⟩
  refine Runs.always_iff_guarded_unrefused Socket.step kept ?_ actions Socket.start trivial rfl
  rintro s a refused ⟨running,rfl⟩
  simp [Socket.step,running] at refused

/-- The page goes away: the socket ends without `Closed`. -/
theorem dropped_without_closed : ¬ Runs.Always Socket.step Socket.WellSpoken Socket.start
        [.shaken (.ok ("","")),.command .dropped] := by
  intro always
  have ended := Runs.always_final _ always (show Runs.exec Socket.step Socket.start _ =
    some ⟨.ended,[.opened "" ""]⟩ from rfl)
  exact Conversing.not_word ⟨"","",[],rfl,by simp⟩ ended

end Sharko.Netstack.WebSocket
