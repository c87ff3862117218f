import Mathlib
import Sharko.Library.Runs

/-! `ReadableStream` and its default reader: the queue, the waiting reads and the pulls
of the underlying source, for every interleaving of the source with the consumer. -/

namespace Sharko.Script.WebApi.Streams

open Sharko.Library

/-- `Number(strategy.highWaterMark)`, as the two comparisons with a queue length see it. -/
inductive HighWaterMark where
  | number (value : ℚ)
  | infinite
  | lowest
  | nan
  deriving DecidableEq

def HighWaterMark.reached (length : ℕ) : HighWaterMark → Bool
  | .number value => decide (value ≤ length)
  | .infinite => false
  | .lowest => true
  | .nan => false

def HighWaterMark.below (length : ℕ) : HighWaterMark → Bool
  | .number value => decide ((length : ℚ) < value)
  | .infinite => true
  | .lowest => false
  | .nan => false

inductive Status (ε : Type) where
  | readable
  | closed
  | errored (error : ε)
  deriving DecidableEq

namespace Status

variable {ε : Type}

def isReadable : Status ε → Bool
  | .readable => true
  | _ => false

def isClosed : Status ε → Bool
  | .closed => true
  | _ => false

end Status

/-- The promise of one `read()`, with the reader it was asked of. -/
structure Read where
  id : ℕ
  reader : ℕ
  deriving DecidableEq

inductive Event (α ε : Type) where
  | pull
  | enqueue (chunk : α)
  | read (read : Read)
  | hand (read : Read) (chunk : α)
  | finish (read : Read)
  | reject (read : Read) (error : ε)
  | drop (chunks : List α)
  | release (reader : ℕ)
  deriving DecidableEq

/-- The private fields of the stream; `callable` says whether the source's `pull` is a function. -/
structure Stream (α ε : Type) where
  queue : List α
  state : Status ε
  reader : Option ℕ
  waiting : List Read
  pulling : Bool
  hwm : HighWaterMark
  callable : Bool
  deriving DecidableEq

section operations

variable {α ε : Type}

/-- `#pull` up to the call of the source; what its promise does later is `pulled` and `pullFailed`. -/
def pull (s : Stream α ε) : Stream α ε × List (Event α ε) :=
  if s.pulling || !s.state.isReadable then (s,[])
  else if !s.callable then (s,[])
  else if s.hwm.reached s.queue.length && s.waiting.isEmpty then (s,[])
  else ({ s with pulling := true },[.pull])

/-- Refused (a `TypeError`) unless the stream is readable. -/
def rsEnqueue (s : Stream α ε) (chunk : α) : Option (Stream α ε × List (Event α ε)) :=
  if !s.state.isReadable then none
  else
    match s.waiting with
    | w :: rest => some ({ s with waiting := rest },[.enqueue chunk,.hand w chunk])
    | [] => some ({ s with queue := s.queue ++ [chunk] },[.enqueue chunk])

def rsClose (s : Stream α ε) : Stream α ε × List (Event α ε) :=
  if !s.state.isReadable then (s,[])
  else if s.queue.isEmpty then ({ s with state := .closed, waiting := [] },s.waiting.map .finish)
  else ({ s with state := .closed },[])

def rsError (s : Stream α ε) (e : ε) : Stream α ε × List (Event α ε) :=
  if !s.state.isReadable then (s,[])
  else
    ({ s with state := .errored e, queue := [], waiting := [] },
      .drop s.queue :: s.waiting.map fun w => .reject w e)

def rsRead (s : Stream α ε) (r : Read) : Stream α ε × List (Event α ε) :=
  match s.queue with
  | v :: rest =>
    let emptied := rest.isEmpty && s.state.isClosed
    let left := if emptied then [] else s.waiting
    let (t,log) := pull { s with queue := rest, waiting := left }
    (t,.read r :: .hand r v :: (if emptied then s.waiting.map .finish else []) ++ log)
  | [] =>
    match s.state with
    | .closed => (s,[.read r,.finish r])
    | .errored e => (s,[.read r,.reject r e])
    | .readable =>
      let (t,log) := pull { s with waiting := s.waiting ++ [r] }
      (t,.read r :: log)

def rsCancel (s : Stream α ε) : Stream α ε × List (Event α ε) :=
  let (t,log) := rsClose { s with queue := [] }
  (t,.drop s.queue :: log)

def pulled (s : Stream α ε) : Stream α ε × List (Event α ε) :=
  let t := { s with pulling := false }
  if !t.waiting.isEmpty || t.hwm.below t.queue.length then pull t else (t,[])

def pullFailed (s : Stream α ε) (e : ε) : Stream α ε × List (Event α ε) :=
  rsError { s with pulling := false } e

end operations

/-- The stream with its readers and what has happened so far; `starting` until the
constructor's own reaction (or microtask) has run. -/
structure System (α ε : Type) where
  stream : Stream α ε
  starting : Bool
  nextReader : ℕ
  nextRead : ℕ
  trace : List (Event α ε)
  deriving DecidableEq

/-- What the source, the consumer and the job queue can do next. -/
inductive Action (α ε : Type) where
  | started
  | startFailed (error : ε)
  | enqueue (chunk : α)
  | close
  | error (error : ε)
  | getReader
  | read (reader : ℕ)
  | releaseLock (reader : ℕ)
  | cancel (holder : Option ℕ)
  | pulled
  | pullFailed (error : ε)
  | setPull (callable : Bool)
  deriving DecidableEq

section system

variable {α ε : Type}

def new (hwm : HighWaterMark) (callable : Bool) : System α ε where
  stream := {
    queue := [], state := .readable, reader := none, waiting := [], pulling := false,
    hwm := hwm, callable := callable }
  starting := true
  nextReader := 0
  nextRead := 0
  trace := []

def System.log (system : System α ε) (result : Stream α ε × List (Event α ε)) : System α ε :=
  { system with stream := result.1, trace := system.trace ++ result.2 }

/-- A reader that has been released keeps its object: its `read` and `releaseLock` leave the
stream alone, and so does `cancel` of a locked stream (`holder` none) or of such a reader. -/
def step (system : System α ε) : Action α ε → Option (System α ε)
  | .started =>
    if system.starting then some ({ system with starting := false }.log (pull system.stream)) else none
  | .startFailed e =>
    if system.starting then some ({ system with starting := false }.log (rsError system.stream e)) else none
  | .enqueue chunk => (rsEnqueue system.stream chunk).map system.log
  | .close => some (system.log (rsClose system.stream))
  | .error e => some (system.log (rsError system.stream e))
  | .getReader =>
    if system.stream.reader.isNone then
      some { system with
        stream := { system.stream with reader := some system.nextReader }
        nextReader := system.nextReader + 1 }
    else none
  | .read reader =>
    if system.stream.reader = some reader then
      some ({ system with nextRead := system.nextRead + 1 }.log
        (rsRead system.stream ⟨system.nextRead,reader⟩))
    else some system
  | .releaseLock reader =>
    if system.stream.reader = some reader then
      some (system.log ({ system.stream with reader := none },[.release reader]))
    else some system
  | .cancel holder =>
    if system.stream.reader = holder then some (system.log (rsCancel system.stream)) else some system
  | .pulled => if system.stream.pulling then some (system.log (pulled system.stream)) else none
  | .pullFailed e =>
    if system.stream.pulling then some (system.log (pullFailed system.stream e)) else none
  | .setPull callable =>
    some { system with stream := { system.stream with callable := callable } }

end system

section traces

variable {α ε : Type}

def enqueued (trace : List (Event α ε)) : List α :=
  trace.filterMap fun
    | .enqueue chunk => some chunk
    | _ => none

def handed (trace : List (Event α ε)) : List α :=
  trace.filterMap fun
    | .hand _ chunk => some chunk
    | _ => none

def handedTo (trace : List (Event α ε)) : List Read :=
  trace.filterMap fun
    | .hand r _ => some r
    | _ => none

def dropped (trace : List (Event α ε)) : List α :=
  trace.flatMap fun
    | .drop chunks => chunks
    | _ => []

def issued (trace : List (Event α ε)) : List Read :=
  trace.filterMap fun
    | .read r => some r
    | _ => none

def Event.isPull : Event α ε → Bool
  | .pull => true
  | _ => false

def Event.counts : Event α ε → Bool
  | .pull => true
  | .enqueue _ => true
  | .read _ => true
  | _ => false

def demand (trace : List (Event α ε)) : List (Event α ε) := trace.filter Event.counts

def pulls (trace : List (Event α ε)) : ℕ := trace.countP Event.isPull

def spent (trace : List (Event α ε)) : Bool := (demand trace).getLast?.any Event.isPull

def stale : Event α ε → Event α ε → Bool
  | .release reader,.hand r _ => reader == r.reader
  | _,_ => false

section append

variable (first second : List (Event α ε))

@[simp] theorem enqueued_append : enqueued (first ++ second) = enqueued first ++ enqueued second :=
  List.filterMap_append ..

@[simp] theorem handed_append : handed (first ++ second) = handed first ++ handed second :=
  List.filterMap_append ..

@[simp] theorem handedTo_append : handedTo (first ++ second) = handedTo first ++ handedTo second :=
  List.filterMap_append ..

@[simp] theorem dropped_append : dropped (first ++ second) = dropped first ++ dropped second :=
  List.flatMap_append ..

@[simp] theorem issued_append : issued (first ++ second) = issued first ++ issued second :=
  List.filterMap_append ..

@[simp] theorem demand_append : demand (first ++ second) = demand first ++ demand second :=
  List.filter_append ..

end append

end traces

section laws

variable {α ε : Type}

def wants (s : Stream α ε) : Bool :=
  !s.pulling && s.state.isReadable && s.callable && !(s.hwm.reached s.queue.length && s.waiting.isEmpty)

def rearms (s : Stream α ε) : Bool :=
  (!s.waiting.isEmpty || s.hwm.below s.queue.length) && wants { s with pulling := false }

/-- Every chunk enqueued has been handed to one read, in order, or is still queued; only the
chunks still queued when the stream errors or is cancelled are dropped. -/
structure Delivered (system : System α ε) : Prop where
  chunks : enqueued system.trace =
    handed system.trace ++ dropped system.trace ++ system.stream.queue
  reads : (handedTo system.trace ++ system.stream.waiting).Sublist (issued system.trace)
  distinct : (issued system.trace).Nodup
  apart : system.stream.waiting = [] ∨ system.stream.queue = []
  ended : dropped system.trace ≠ [] →
    system.stream.queue = [] ∧ system.stream.state.isReadable = false

/-- No pull follows another before something was read or enqueued. -/
def Sparing (trace : List (Event α ε)) : Prop :=
  (demand trace).IsChain fun earlier later => earlier.isPull → !later.isPull

structure Frugal (system : System α ε) : Prop where
  sparing : Sparing system.trace
  bound : pulls system.trace ≤
    1 + (enqueued system.trace).length + (issued system.trace).length

def Honoured (system : System α ε) : Prop :=
  system.trace.Pairwise fun earlier later => stale earlier later = false

/-- Neither the end of `start` nor a fulfilled pull calls the source again with nothing read or
enqueued since its last call. -/
def Unrepeated (system : System α ε) : Action α ε → Prop
  | .started => system.starting → wants system.stream → spent system.trace = false
  | .pulled => system.stream.pulling → rearms system.stream → spent system.trace = false
  | _ => True

/-- No chunk is enqueued while the oldest waiting read is one of a released reader. -/
def Reclaimed (system : System α ε) : Action α ε → Prop
  | .enqueue _ => system.stream.state.isReadable →
      ∀ w ∈ system.stream.waiting.head?, .release w.reader ∉ system.trace
  | _ => True

end laws

section effects

variable {α ε : Type} (s : Stream α ε)

theorem pull_eq : pull s = if wants s then ({ s with pulling := true },[.pull]) else (s,[]) := by
  unfold pull wants
  cases s.pulling <;> cases s.state.isReadable <;> cases s.callable <;>
    cases s.hwm.reached s.queue.length && s.waiting.isEmpty <;> rfl

@[simp] theorem pull_queue : (pull s).1.queue = s.queue := by
  rw [pull_eq]
  split <;> rfl

@[simp] theorem pull_state : (pull s).1.state = s.state := by
  rw [pull_eq]
  split <;> rfl

@[simp] theorem pull_waiting : (pull s).1.waiting = s.waiting := by
  rw [pull_eq]
  split <;> rfl

@[simp] theorem pull_reader : (pull s).1.reader = s.reader := by
  rw [pull_eq]
  split <;> rfl

theorem pull_log : (pull s).2 = if wants s then [.pull] else [] := by
  rw [pull_eq]
  split <;> rfl

/-- What an operation may do to the chunks and the reads, given the reads it issues and the
log it leaves. -/
structure Sound (asked : List Read) (result : Stream α ε × List (Event α ε)) : Prop where
  asks : issued result.2 = asked
  chunks : s.queue ++ enqueued result.2 = handed result.2 ++ dropped result.2 ++ result.1.queue
  reads : (handedTo result.2 ++ result.1.waiting).Sublist (s.waiting ++ asked)
  apart : result.1.waiting = [] ∨ result.1.queue = []
  ended : s.state.isReadable = false → result.1.state.isReadable = false ∧ enqueued result.2 = []
  drops : dropped result.2 ≠ [] → result.1.queue = [] ∧ result.1.state.isReadable = false

theorem finishes_silent (waiting : List Read) : enqueued (waiting.map Event.finish : List (Event α ε)) = [] ∧
      handed (waiting.map Event.finish : List (Event α ε)) = [] ∧
      handedTo (waiting.map Event.finish : List (Event α ε)) = [] ∧
      dropped (waiting.map Event.finish : List (Event α ε)) = [] ∧
      issued (waiting.map Event.finish : List (Event α ε)) = [] ∧
      demand (waiting.map Event.finish : List (Event α ε)) = [] := by
  simp [enqueued,handed,handedTo,dropped,issued,demand,Event.counts]

theorem pull_silent (s : Stream α ε) :
    enqueued (pull s).2 = [] ∧ handed (pull s).2 = [] ∧ handedTo (pull s).2 = [] ∧
      dropped (pull s).2 = [] ∧ issued (pull s).2 = [] := by
  rw [pull_log]
  split <;> simp [enqueued,handed,handedTo,dropped,issued]

theorem unchanged_sound (apart : s.waiting = [] ∨ s.queue = []) (t : Stream α ε) (log : List (Event α ε))
    (queue : t.queue = s.queue) (waiting : t.waiting = s.waiting) (state : t.state = s.state)
    (silent : enqueued log = [] ∧ handed log = [] ∧ handedTo log = [] ∧ dropped log = [] ∧
      issued log = []) : Sound s [] (t,log) := by
  obtain ⟨noEnqueue,noHand,noHandTo,noDrop,noRead⟩ := silent
  refine ⟨?_,?_,?_,?_,?_,?_⟩
  · exact noRead
  · simp [noEnqueue,noHand,noDrop,queue]
  · simp [noHandTo,waiting]
  · rw [queue,waiting]
    exact apart
  · intro unreadable
    rw [state]
    exact ⟨unreadable,noEnqueue⟩
  · intro some_
    exact absurd noDrop some_

theorem pull_sound (apart : s.waiting = [] ∨ s.queue = []) : Sound s [] (pull s) :=
  unchanged_sound s apart _ _ (pull_queue s) (pull_waiting s) (pull_state s) (pull_silent s)

theorem rsEnqueue_sound (apart : s.waiting = [] ∨ s.queue = []) {chunk : α}
    {result : Stream α ε × List (Event α ε)} (ran : rsEnqueue s chunk = some result) : Sound s [] result := by
  unfold rsEnqueue at ran
  cases readable : s.state.isReadable with
  | false => simp [readable] at ran
  | true =>
    cases waiting : s.waiting with
    | nil =>
      obtain rfl : _ = result := by simpa [readable,waiting] using ran
      refine ⟨?_,?_,?_,?_,?_,?_⟩ <;>
        simp [enqueued,handed,handedTo,dropped,issued,waiting,readable]
    | cons w rest =>
      obtain rfl : _ = result := by simpa [readable,waiting] using ran
      have empty : s.queue = [] := by simpa [waiting] using apart
      refine ⟨?_,?_,?_,?_,?_,?_⟩ <;>
        simp [enqueued,handed,handedTo,dropped,issued,waiting,readable,empty]

theorem rsClose_sound (apart : s.waiting = [] ∨ s.queue = []) : Sound s [] (rsClose s) := by
  unfold rsClose
  obtain ⟨noEnqueue,noHand,noHandTo,noDrop,noRead,_⟩ := finishes_silent (α := α) (ε := ε) s.waiting
  cases readable : s.state.isReadable with
  | false => exact unchanged_sound s apart s [] rfl rfl rfl (by simp [enqueued,handed,handedTo,dropped,issued])
  | true =>
    cases queue : s.queue with
    | nil =>
      refine ⟨?_,?_,?_,?_,?_,?_⟩ <;>
        simp [noEnqueue,noHand,noHandTo,noDrop,noRead,queue,readable]
    | cons v rest =>
      have empty : s.waiting = [] := by simpa [queue] using apart
      refine ⟨?_,?_,?_,?_,?_,?_⟩ <;>
        simp [enqueued,handed,handedTo,dropped,issued,queue,readable,empty]

theorem rsError_sound (apart : s.waiting = [] ∨ s.queue = []) (e : ε) : Sound s [] (rsError s e) := by
  unfold rsError
  cases readable : s.state.isReadable with
  | false => exact unchanged_sound s apart s [] rfl rfl rfl (by simp [enqueued,handed,handedTo,dropped,issued])
  | true =>
    refine ⟨?_,?_,?_,?_,?_,?_⟩ <;>
      simp [enqueued,handed,handedTo,dropped,issued,Status.isReadable]

theorem Sound.then_pull {s t : Stream α ε} {asked : List Read} {log : List (Event α ε)}
    (sound : Sound s asked (t,log)) : Sound s asked ((pull t).1,log ++ (pull t).2) := by
  obtain ⟨noEnqueue,noHand,noHandTo,noDrop,noRead⟩ := pull_silent t
  refine ⟨?_,?_,?_,?_,?_,?_⟩
  · simpa [noRead] using sound.asks
  · simpa [noEnqueue,noHand,noDrop] using sound.chunks
  · simpa [noHandTo] using sound.reads
  · simpa using sound.apart
  · simpa [noEnqueue] using sound.ended
  · simpa [noDrop] using sound.drops

theorem rsRead_sound (apart : s.waiting = [] ∨ s.queue = []) (r : Read) : Sound s [r] (rsRead s r) := by
  unfold rsRead
  cases queue : s.queue with
  | cons v rest =>
    have empty : s.waiting = [] := by simpa [queue] using apart
    have taken : Sound s [r] ({ s with queue := rest, waiting := [] },[.read r,.hand r v]) := by
      refine ⟨?_,?_,?_,?_,?_,?_⟩ <;>
        simp [enqueued,handed,handedTo,dropped,issued,queue,empty]
    simpa [empty] using taken.then_pull
  | nil =>
    cases state : s.state with
    | closed =>
      refine ⟨?_,?_,?_,?_,?_,?_⟩ <;>
        simp [enqueued,handed,handedTo,dropped,issued,queue,state,Status.isReadable]
    | errored e =>
      refine ⟨?_,?_,?_,?_,?_,?_⟩ <;>
        simp [enqueued,handed,handedTo,dropped,issued,queue,state,Status.isReadable]
    | readable =>
      have waits : Sound s [r] ({ s with waiting := s.waiting ++ [r] },[.read r]) := by
        refine ⟨?_,?_,?_,?_,?_,?_⟩ <;>
          simp [enqueued,handed,handedTo,dropped,issued,queue,state,Status.isReadable]
      simpa [queue,state] using waits.then_pull

theorem rsCancel_sound : Sound s [] (rsCancel s) := by
  unfold rsCancel rsClose
  cases readable : s.state.isReadable with
  | false =>
    refine ⟨?_,?_,?_,?_,?_,?_⟩ <;>
      simp [enqueued,handed,handedTo,dropped,issued,readable]
  | true =>
    refine ⟨?_,?_,?_,?_,?_,?_⟩ <;>
      simp [enqueued,handed,handedTo,dropped,issued,Status.isReadable]

theorem pulled_eq : pulled s =
    if !s.waiting.isEmpty || s.hwm.below s.queue.length then pull { s with pulling := false }
    else ({ s with pulling := false },[]) := rfl

theorem pulled_sound (apart : s.waiting = [] ∨ s.queue = []) : Sound s [] (pulled s) := by
  rw [pulled_eq]
  split
  · have pulling := pull_sound { s with pulling := false } apart
    exact ⟨pulling.asks,pulling.chunks,pulling.reads,pulling.apart,pulling.ended,pulling.drops⟩
  · exact unchanged_sound s apart _ [] rfl rfl rfl (by simp [enqueued,handed,handedTo,dropped,issued])

theorem pullFailed_sound (apart : s.waiting = [] ∨ s.queue = []) (e : ε) : Sound s [] (pullFailed s e) := by
  have failing := rsError_sound { s with pulling := false } apart e
  exact ⟨failing.asks,failing.chunks,failing.reads,failing.apart,failing.ended,failing.drops⟩

end effects

section delivery

variable {α ε : Type}

theorem step_sound {system next : System α ε} {action : Action α ε}
    (apart : system.stream.waiting = [] ∨ system.stream.queue = []) (taken : step system action = some next) :
    ∃ asked log, next.trace = system.trace ++ log ∧ Sound system.stream asked (next.stream,log) ∧
      ((asked = [] ∧ next.nextRead = system.nextRead) ∨
        ∃ reader, asked = [⟨system.nextRead,reader⟩] ∧ next.nextRead = system.nextRead + 1) := by
  have still : ∀ t : Stream α ε, t.queue = system.stream.queue →
      t.waiting = system.stream.waiting → t.state = system.stream.state →
      Sound system.stream [] (t,([] : List (Event α ε))) := by
    intro t queue waiting state
    exact unchanged_sound _ apart t [] queue waiting state
      (by simp [enqueued,handed,handedTo,dropped,issued])
  cases action with
  | started =>
    obtain ⟨_,taken⟩ := Option.ite_none_right_eq_some.mp taken
    obtain rfl := Option.some.inj taken
    exact ⟨[],_,rfl,pull_sound _ apart,.inl ⟨rfl,rfl⟩⟩
  | startFailed e =>
    obtain ⟨_,taken⟩ := Option.ite_none_right_eq_some.mp taken
    obtain rfl := Option.some.inj taken
    exact ⟨[],_,rfl,rsError_sound _ apart e,.inl ⟨rfl,rfl⟩⟩
  | enqueue chunk =>
    obtain ⟨result,ran,rfl⟩ := Option.map_eq_some_iff.mp taken
    exact ⟨[],_,rfl,rsEnqueue_sound _ apart ran,.inl ⟨rfl,rfl⟩⟩
  | close =>
    obtain rfl := Option.some.inj taken
    exact ⟨[],_,rfl,rsClose_sound _ apart,.inl ⟨rfl,rfl⟩⟩
  | error e =>
    obtain rfl := Option.some.inj taken
    exact ⟨[],_,rfl,rsError_sound _ apart e,.inl ⟨rfl,rfl⟩⟩
  | getReader =>
    obtain ⟨_,taken⟩ := Option.ite_none_right_eq_some.mp taken
    obtain rfl := Option.some.inj taken
    exact ⟨[],[],(List.append_nil _).symm,still _ rfl rfl rfl,.inl ⟨rfl,rfl⟩⟩
  | read reader =>
    change (if system.stream.reader = some reader then _ else _) = _ at taken
    split at taken
    · obtain rfl := Option.some.inj taken
      exact ⟨_,_,rfl,rsRead_sound _ apart _,.inr ⟨reader,rfl,rfl⟩⟩
    · obtain rfl := Option.some.inj taken
      exact ⟨[],[],(List.append_nil _).symm,still _ rfl rfl rfl,.inl ⟨rfl,rfl⟩⟩
  | releaseLock reader =>
    change (if system.stream.reader = some reader then _ else _) = _ at taken
    split at taken
    · obtain rfl := Option.some.inj taken
      refine ⟨[],_,rfl,unchanged_sound _ apart _ _ rfl rfl rfl ?_,.inl ⟨rfl,rfl⟩⟩
      simp [enqueued,handed,handedTo,dropped,issued]
    · obtain rfl := Option.some.inj taken
      exact ⟨[],[],(List.append_nil _).symm,still _ rfl rfl rfl,.inl ⟨rfl,rfl⟩⟩
  | cancel holder =>
    change (if system.stream.reader = holder then _ else _) = _ at taken
    split at taken
    · obtain rfl := Option.some.inj taken
      exact ⟨[],_,rfl,rsCancel_sound _,.inl ⟨rfl,rfl⟩⟩
    · obtain rfl := Option.some.inj taken
      exact ⟨[],[],(List.append_nil _).symm,still _ rfl rfl rfl,.inl ⟨rfl,rfl⟩⟩
  | pulled =>
    obtain ⟨_,taken⟩ := Option.ite_none_right_eq_some.mp taken
    obtain rfl := Option.some.inj taken
    exact ⟨[],_,rfl,pulled_sound _ apart,.inl ⟨rfl,rfl⟩⟩
  | pullFailed e =>
    obtain ⟨_,taken⟩ := Option.ite_none_right_eq_some.mp taken
    obtain rfl := Option.some.inj taken
    exact ⟨[],_,rfl,pullFailed_sound _ apart e,.inl ⟨rfl,rfl⟩⟩
  | setPull callable =>
    obtain rfl := Option.some.inj taken
    exact ⟨[],[],(List.append_nil _).symm,still _ rfl rfl rfl,.inl ⟨rfl,rfl⟩⟩

/-- The chunks and reads are delivered, and the reads to come are new. -/
structure Accounted (system : System α ε) : Prop extends Delivered system where
  fresh : ∀ r ∈ issued system.trace, r.id < system.nextRead

theorem accounted_step (system : System α ε) (action : Action α ε) (next : System α ε)
    (accounted : Accounted system) (taken : step system action = some next) : Accounted next := by
  obtain ⟨asked,log,trace,sound,numbers⟩ := step_sound accounted.apart taken
  have chunks := sound.chunks
  have older : dropped system.trace ≠ [] →
      enqueued log = [] ∧ handed log = [] ∧ dropped log = [] ∧ next.stream.queue = [] ∧
        next.stream.state.isReadable = false := by
    intro some_
    obtain ⟨queue,unreadable⟩ := accounted.ended some_
    obtain ⟨unreadableNext,noEnqueue⟩ := sound.ended unreadable
    simp only [queue,noEnqueue,List.append_nil,List.nil_eq,List.append_eq_nil_iff] at chunks
    exact ⟨noEnqueue,chunks.1.1,chunks.1.2,chunks.2,unreadableNext⟩
  refine ⟨⟨?_,?_,?_,sound.apart,?_⟩,?_⟩
  · rw [trace,enqueued_append,handed_append,dropped_append,accounted.chunks]
    by_cases none_ : dropped system.trace = []
    · simp only [none_,List.append_nil,List.nil_append,List.append_assoc]
      simpa [List.append_assoc] using chunks
    · obtain ⟨noEnqueue,noHand,noDrop,queue,_⟩ := older none_
      simp [noEnqueue,noHand,noDrop,queue,(accounted.ended none_).1]
  · rw [trace,handedTo_append,issued_append,sound.asks,List.append_assoc]
    have later := sound.reads.append_left (handedTo system.trace)
    have before := accounted.reads.append_right asked
    rw [List.append_assoc] at before
    exact later.trans before
  · rw [trace,issued_append,sound.asks]
    refine accounted.distinct.append ?_ ?_
    · obtain ⟨rfl,_⟩ | ⟨reader,rfl,_⟩ := numbers
      · exact List.nodup_nil
      · exact List.nodup_singleton _
    · intro r old now
      obtain ⟨rfl,_⟩ | ⟨reader,rfl,_⟩ := numbers
      · exact absurd now List.not_mem_nil
      · obtain rfl := List.mem_singleton.mp now
        exact absurd (accounted.fresh _ old) (Nat.lt_irrefl _)
  · intro some_
    by_cases none_ : dropped system.trace = []
    · rw [trace,dropped_append,none_,List.nil_append] at some_
      exact sound.drops some_
    · exact (older none_).2.2.2
  · intro r inside
    rw [trace,issued_append,sound.asks] at inside
    rcases List.mem_append.mp inside with old | now
    · have := accounted.fresh r old
      obtain ⟨_,same⟩ | ⟨_,_,more⟩ := numbers <;> omega
    · obtain ⟨rfl,_⟩ | ⟨reader,rfl,more⟩ := numbers
      · exact absurd now List.not_mem_nil
      · obtain rfl := List.mem_singleton.mp now
        rw [more]
        exact Nat.lt_succ_self _

theorem accounted_new (hwm : HighWaterMark) (callable : Bool) : Accounted (new hwm callable : System α ε) where
  chunks := rfl
  reads := List.nil_sublist _
  distinct := List.nodup_nil
  apart := .inl rfl
  ended := fun some_ => absurd rfl some_
  fresh := fun _ inside => absurd inside List.not_mem_nil

theorem always_delivered (hwm : HighWaterMark) (callable : Bool) (actions : List (Action α ε)) :
    Runs.Always step Delivered (new hwm callable) actions :=
  Runs.always_of_invariant step accounted_step (fun _ accounted => accounted.toDelivered)
    (accounted_new hwm callable)

end delivery

section demand

variable {α ε : Type}

theorem pull_demand (s : Stream α ε) : demand (pull s).2 = if wants s then [.pull] else [] := by
  rw [pull_log]
  split <;> rfl

theorem pulled_demand (s : Stream α ε) : demand (pulled s).2 = if rearms s then [.pull] else [] := by
  rw [pulled_eq]
  unfold rearms
  split
  next again =>
    rw [pull_demand,again,Bool.true_and]
  next idle =>
    rw [Bool.eq_false_iff.mpr idle,Bool.false_and]
    rfl

theorem rsEnqueue_demand {s : Stream α ε} {chunk : α} {result : Stream α ε × List (Event α ε)}
    (ran : rsEnqueue s chunk = some result) : demand result.2 = [.enqueue chunk] := by
  unfold rsEnqueue at ran
  cases readable : s.state.isReadable with
  | false => simp [readable] at ran
  | true =>
    cases waiting : s.waiting with
    | nil =>
      obtain rfl : _ = result := by simpa [readable,waiting] using ran
      rfl
    | cons w rest =>
      obtain rfl : _ = result := by simpa [readable,waiting] using ran
      rfl

theorem rsClose_demand (s : Stream α ε) : demand (rsClose s).2 = [] := by
  unfold rsClose
  split
  · rfl
  · split
    · exact (finishes_silent s.waiting).2.2.2.2.2
    · rfl

theorem rsError_demand (s : Stream α ε) (e : ε) : demand (rsError s e).2 = [] := by
  unfold rsError
  split
  · rfl
  · simp [demand,Event.counts]

theorem rsCancel_demand (s : Stream α ε) : demand (rsCancel s).2 = [] :=
  rsClose_demand { s with queue := [] }

theorem rsRead_cons {s : Stream α ε} {v : α} {rest : List α} (queue : s.queue = v :: rest)
    (r : Read) : ∃ left done : List Read, rsRead s r = ((pull { s with queue := rest, waiting := left }).1,
        [.read r,.hand r v] ++ done.map .finish ++
          (pull { s with queue := rest, waiting := left }).2) := by
  unfold rsRead
  rw [queue]
  cases emptied : rest.isEmpty && s.state.isClosed with
  | true => exact ⟨[],s.waiting,by simp [emptied]⟩
  | false => exact ⟨s.waiting,[],by simp [emptied]⟩

theorem rsRead_demand (s : Stream α ε) (r : Read) :
    ∃ calls, demand (rsRead s r).2 = .read r :: calls ∧ (calls = [] ∨ calls = [.pull]) := by
  have calling : ∀ t : Stream α ε, demand (pull t).2 = [] ∨ demand (pull t).2 = [.pull] := by
    intro t
    rw [pull_demand]
    cases wants t
    · exact .inl rfl
    · exact .inr rfl
  cases queue : s.queue with
  | cons v rest =>
    obtain ⟨left,done,ran⟩ := rsRead_cons queue r
    refine ⟨demand (pull { s with queue := rest, waiting := left }).2,?_,calling _⟩
    rw [ran,demand_append,demand_append,(finishes_silent done).2.2.2.2.2]
    rfl
  | nil =>
    unfold rsRead
    rw [queue]
    cases s.state with
    | closed => exact ⟨[],rfl,.inl rfl⟩
    | errored e => exact ⟨[],rfl,.inl rfl⟩
    | readable => exact ⟨_,rfl,calling _⟩

theorem sparing_silent (trace : List (Event α ε)) {log : List (Event α ε)} (silent : demand log = []) :
    Sparing (trace ++ log) ↔ Sparing trace := by
  rw [Sparing,demand_append,silent,List.append_nil]
  exact Iff.rfl

theorem sparing_demanded {trace log calls : List (Event α ε)} {event : Event α ε}
    (ran : demand log = event :: calls) (first : event.isPull = false)
    (few : calls = [] ∨ calls = [.pull]) : Sparing (trace ++ log) ↔ Sparing trace := by
  rw [Sparing,demand_append,ran,List.isChain_append]
  have inner : (event :: calls).IsChain fun earlier later => earlier.isPull → !later.isPull := by
    obtain rfl | rfl := few
    · exact List.isChain_singleton _
    · exact List.isChain_pair.mpr (by simp [first])
  constructor
  · intro all
    exact all.1
  · intro older
    refine ⟨older,inner,?_⟩
    intro x _ y head _
    obtain rfl : event = y := by simpa using head
    simp [first]

theorem sparing_pulled (trace : List (Event α ε)) {log : List (Event α ε)} (ran : demand log = [.pull]) :
    Sparing (trace ++ log) ↔ Sparing trace ∧ spent trace = false := by
  rw [Sparing,demand_append,ran,List.isChain_append]
  unfold spent
  cases (demand trace).getLast? with
  | none => simp [Sparing]
  | some last => simp [Sparing,Event.isPull]

theorem sparing_step {system next : System α ε} {action : Action α ε} (taken : step system action = some next) :
    Sparing next.trace ↔ Sparing system.trace ∧ Unrepeated system action := by
  have still : Sparing system.trace ↔ Sparing system.trace ∧ True := by
    rw [and_true]
  cases action with
  | started =>
    obtain ⟨starting,taken⟩ := Option.ite_none_right_eq_some.mp taken
    obtain rfl := Option.some.inj taken
    have called := pull_demand system.stream
    cases wanted : wants system.stream with
    | true =>
      rw [wanted,if_pos rfl] at called
      simpa [System.log,Unrepeated,starting,wanted] using sparing_pulled system.trace called
    | false =>
      rw [wanted,if_neg Bool.false_ne_true] at called
      simpa [System.log,Unrepeated,wanted] using sparing_silent system.trace called
  | pulled =>
    obtain ⟨pulling,taken⟩ := Option.ite_none_right_eq_some.mp taken
    obtain rfl := Option.some.inj taken
    have called := pulled_demand system.stream
    cases again : rearms system.stream with
    | true =>
      rw [again,if_pos rfl] at called
      simpa [System.log,Unrepeated,pulling,again] using sparing_pulled system.trace called
    | false =>
      rw [again,if_neg Bool.false_ne_true] at called
      simpa [System.log,Unrepeated,again] using sparing_silent system.trace called
  | startFailed e =>
    obtain ⟨_,taken⟩ := Option.ite_none_right_eq_some.mp taken
    obtain rfl := Option.some.inj taken
    exact (sparing_silent _ (rsError_demand _ e)).trans still
  | enqueue chunk =>
    obtain ⟨result,ran,rfl⟩ := Option.map_eq_some_iff.mp taken
    exact (sparing_demanded (rsEnqueue_demand ran) rfl (.inl rfl)).trans still
  | close =>
    obtain rfl := Option.some.inj taken
    exact (sparing_silent _ (rsClose_demand _)).trans still
  | error e =>
    obtain rfl := Option.some.inj taken
    exact (sparing_silent _ (rsError_demand _ e)).trans still
  | getReader =>
    obtain ⟨_,taken⟩ := Option.ite_none_right_eq_some.mp taken
    obtain rfl := Option.some.inj taken
    exact still
  | read reader =>
    change (if system.stream.reader = some reader then _ else _) = _ at taken
    split at taken
    · obtain rfl := Option.some.inj taken
      obtain ⟨calls,ran,few⟩ := rsRead_demand system.stream ⟨system.nextRead,reader⟩
      exact (sparing_demanded ran rfl few).trans still
    · obtain rfl := Option.some.inj taken
      exact still
  | releaseLock reader =>
    change (if system.stream.reader = some reader then _ else _) = _ at taken
    split at taken
    · obtain rfl := Option.some.inj taken
      exact (sparing_silent _ rfl).trans still
    · obtain rfl := Option.some.inj taken
      exact still
  | cancel holder =>
    change (if system.stream.reader = holder then _ else _) = _ at taken
    split at taken
    · obtain rfl := Option.some.inj taken
      exact (sparing_silent _ (rsCancel_demand _)).trans still
    · obtain rfl := Option.some.inj taken
      exact still
  | pullFailed e =>
    obtain ⟨_,taken⟩ := Option.ite_none_right_eq_some.mp taken
    obtain rfl := Option.some.inj taken
    exact (sparing_silent _ (rsError_demand _ e)).trans still
  | setPull callable =>
    obtain rfl := Option.some.inj taken
    exact still

theorem countP_le_of_apart {β : Type} {kind : β → Bool} {entries : List β}
    (apart : entries.IsChain fun earlier later => kind earlier → !kind later) :
    entries.countP kind ≤ 1 + entries.countP fun entry => !kind entry := by
  induction entries using List.twoStepInduction with
  | nil => simp
  | singleton entry => cases held : kind entry <;> simp [held]
  | cons_cons first second rest ih ih' =>
    obtain ⟨head,tail⟩ := List.isChain_cons_cons.mp apart
    cases held : kind first with
    | false =>
      have shorter := ih' second tail
      simp [List.countP_cons,held] at shorter ⊢
      omega
    | true =>
      have other : kind second = false := by simpa [held] using head
      have shorter := ih tail.tail
      simp [held,other] at shorter ⊢
      omega

theorem demand_pulls (trace : List (Event α ε)) : (demand trace).countP Event.isPull = pulls trace := by
  rw [demand,List.countP_filter]
  apply List.countP_congr
  intro event _
  cases event <;> simp [Event.isPull,Event.counts]

theorem demand_others (trace : List (Event α ε)) : (demand trace).countP (fun event => !event.isPull) =
      (enqueued trace).length + (issued trace).length := by
  rw [demand,List.countP_filter]
  induction trace with
  | nil => rfl
  | cons event rest ih =>
    rw [List.countP_cons,ih]
    cases event <;> simp [enqueued,issued,Event.isPull,Event.counts] <;> omega

theorem pulls_le {trace : List (Event α ε)} (sparing : Sparing trace) :
    pulls trace ≤ 1 + (enqueued trace).length + (issued trace).length := by
  have few := countP_le_of_apart sparing
  rw [demand_pulls,demand_others] at few
  omega

theorem always_frugal_iff (hwm : HighWaterMark) (callable : Bool) (actions : List (Action α ε)) :
    Runs.Always step Frugal (new hwm callable) actions ↔
      Runs.Guarded step Unrepeated (new hwm callable) actions := by
  refine @Runs.always_iff_guarded_unrefused _ _ step _ (fun _ => True) _ ?_ ?_ actions _ trivial ?_
  · intro system action next _ frugal taken
    refine ⟨trivial,?_⟩
    have exactly := sparing_step taken
    constructor
    · intro later
      exact (exactly.mp later.sparing).2
    · intro unrepeated
      have sparing := exactly.mpr ⟨frugal.sparing,unrepeated⟩
      exact ⟨sparing,pulls_le sparing⟩
  · intro system action refused
    cases action with
    | started =>
      intro starting
      simp [step,starting] at refused
    | pulled =>
      intro pulling
      simp [step,pulling] at refused
    | _ => trivial
  · have sparing : Sparing (new hwm callable : System α ε).trace := List.IsChain.nil
    exact ⟨sparing,pulls_le sparing⟩

end demand

section releases

variable {α ε : Type}

theorem stale_eq_true {earlier later : Event α ε} :
    stale earlier later = true ↔ ∃ r chunk, later = .hand r chunk ∧ earlier = .release r.reader := by
  constructor
  · intro held
    unfold stale at held
    split at held
    next reader r chunk =>
      obtain rfl : reader = r.reader := by simpa using held
      exact ⟨r,chunk,rfl,rfl⟩
    next => cases held
  · rintro ⟨r,chunk,rfl,rfl⟩
    simp [stale]

theorem mem_handedTo {trace : List (Event α ε)} {r : Read} :
    r ∈ handedTo trace ↔ ∃ chunk, .hand r chunk ∈ trace := by
  unfold handedTo
  rw [List.mem_filterMap]
  constructor
  · rintro ⟨event,inside,found⟩
    split at found
    next r' chunk =>
      obtain rfl := Option.some.inj found
      exact ⟨chunk,inside⟩
    next => cases found
  · rintro ⟨chunk,inside⟩
    exact ⟨_,inside,rfl⟩

/-- A log without a release is honoured exactly when none of its chunks goes to a read of a
reader released before it. -/
theorem honoured_append {trace log : List (Event α ε)} (keeps : ∀ reader, .release reader ∉ log) :
    ((trace ++ log).Pairwise fun earlier later => stale earlier later = false) ↔
      (trace.Pairwise fun earlier later => stale earlier later = false) ∧
        ∀ r ∈ handedTo log, .release r.reader ∉ trace := by
  rw [List.pairwise_append]
  have inner : log.Pairwise fun earlier later => stale earlier later = false := by
    apply List.pairwise_of_forall_mem_list
    intro earlier inside later _
    apply Bool.eq_false_iff.mpr
    intro held
    obtain ⟨r,chunk,rfl,rfl⟩ := stale_eq_true.mp held
    exact keeps _ inside
  constructor
  · rintro ⟨older,-,across⟩
    refine ⟨older,?_⟩
    intro r inside released
    obtain ⟨chunk,handed⟩ := mem_handedTo.mp inside
    have held := across _ released _ handed
    rw [stale_eq_true.mpr ⟨r,chunk,rfl,rfl⟩] at held
    cases held
  · rintro ⟨older,unreleased⟩
    refine ⟨older,inner,?_⟩
    intro earlier before later now
    apply Bool.eq_false_iff.mpr
    intro held
    obtain ⟨r,chunk,rfl,rfl⟩ := stale_eq_true.mp held
    exact unreleased r (mem_handedTo.mpr ⟨chunk,now⟩) before

structure Held (system : System α ε) : Prop where
  released : ∀ reader, .release reader ∈ system.trace →
    reader < system.nextReader ∧ system.stream.reader ≠ some reader
  current : ∀ reader, system.stream.reader = some reader → reader < system.nextReader

structure Hands (s : Stream α ε) (served : List Read) (result : Stream α ε × List (Event α ε)) : Prop where
  reader : result.1.reader = s.reader
  keeps : ∀ reader, .release reader ∉ result.2
  hands : handedTo result.2 = served

theorem unchanged_hands (s : Stream α ε) : Hands s [] (s,[]) where
  reader := rfl
  keeps := fun _ => List.not_mem_nil
  hands := rfl

theorem pull_keeps (s : Stream α ε) (reader : ℕ) : .release reader ∉ (pull s).2 := by
  rw [pull_log]
  split <;> simp

theorem pull_hands (s : Stream α ε) : Hands s [] (pull s) where
  reader := pull_reader s
  keeps := pull_keeps s
  hands := (pull_silent s).2.2.1

theorem rsEnqueue_hands {s : Stream α ε} {chunk : α} {result : Stream α ε × List (Event α ε)}
    (ran : rsEnqueue s chunk = some result) :
    s.state.isReadable = true ∧ Hands s s.waiting.head?.toList result := by
  unfold rsEnqueue at ran
  cases readable : s.state.isReadable with
  | false => simp [readable] at ran
  | true =>
    cases waiting : s.waiting with
    | nil =>
      obtain rfl : _ = result := by simpa [readable,waiting] using ran
      exact ⟨rfl,rfl,by simp,rfl⟩
    | cons w rest =>
      obtain rfl : _ = result := by simpa [readable,waiting] using ran
      exact ⟨rfl,rfl,by simp,rfl⟩

theorem rsClose_hands (s : Stream α ε) : Hands s [] (rsClose s) := by
  unfold rsClose
  split
  · exact unchanged_hands s
  · split
    · exact ⟨rfl,by simp,(finishes_silent s.waiting).2.2.1⟩
    · exact ⟨rfl,by simp,rfl⟩

theorem rsError_hands (s : Stream α ε) (e : ε) : Hands s [] (rsError s e) := by
  unfold rsError
  split
  · exact unchanged_hands s
  · exact ⟨rfl,by simp,by simp [handedTo]⟩

theorem rsCancel_hands (s : Stream α ε) : Hands s [] (rsCancel s) := by
  have closing := rsClose_hands ({ s with queue := [] } : Stream α ε)
  refine ⟨closing.reader,?_,closing.hands⟩
  intro reader inside
  rcases List.mem_cons.mp inside with drop | later
  · cases drop
  · exact closing.keeps reader later

theorem rsRead_hands (s : Stream α ε) (r : Read) :
    ∃ served, Hands s served (rsRead s r) ∧ ∀ x ∈ served, x = r := by
  cases queue : s.queue with
  | cons v rest =>
    obtain ⟨left,done,ran⟩ := rsRead_cons queue r
    refine ⟨[r],⟨?_,?_,?_⟩,by simp⟩
    · rw [ran]
      exact pull_reader _
    · intro reader
      rw [ran]
      simp [pull_keeps]
    · rw [ran,handedTo_append,handedTo_append,(finishes_silent done).2.2.1,(pull_hands _).hands]
      rfl
  | nil =>
    unfold rsRead
    rw [queue]
    cases s.state with
    | closed => exact ⟨[],⟨rfl,by simp,rfl⟩,by simp⟩
    | errored e => exact ⟨[],⟨rfl,by simp,rfl⟩,by simp⟩
    | readable =>
      refine ⟨[],⟨pull_reader _,?_,?_⟩,by simp⟩
      · intro reader
        simp [pull_keeps]
      · exact (pull_hands _).hands

theorem pulled_hands (s : Stream α ε) : Hands s [] (pulled s) := by
  rw [pulled_eq]
  split
  · have called := pull_hands { s with pulling := false }
    exact ⟨called.reader,called.keeps,called.hands⟩
  · exact ⟨rfl,by simp,rfl⟩

theorem pullFailed_hands (s : Stream α ε) (e : ε) : Hands s [] (pullFailed s e) := by
  have failed := rsError_hands { s with pulling := false } e
  exact ⟨failed.reader,failed.keeps,failed.hands⟩

theorem held_log {system next : System α ε} {served : List Read}
    {result : Stream α ε × List (Event α ε)} (held : Held system)
    (hands : Hands system.stream served result) (stream : next.stream = result.1)
    (trace : next.trace = system.trace ++ result.2) (readers : next.nextReader = system.nextReader) :
    Held next ∧ (Honoured next ↔ Honoured system ∧ ∀ r ∈ served, .release r.reader ∉ system.trace) := by
  refine ⟨⟨?_,?_⟩,?_⟩
  · intro reader inside
    rw [stream,hands.reader,readers]
    rw [trace] at inside
    rcases List.mem_append.mp inside with old | now
    · exact held.released reader old
    · exact absurd now (hands.keeps reader)
  · intro reader holds
    rw [stream,hands.reader] at holds
    rw [readers]
    exact held.current reader holds
  · rw [Honoured,trace,honoured_append hands.keeps,hands.hands]
    exact Iff.rfl

theorem held_step (system : System α ε) (action : Action α ε) (next : System α ε)
    (held : Held system) (taken : step system action = some next) :
    Held next ∧ (Honoured next ↔ Honoured system ∧ Reclaimed system action) := by
  have quiet : ∀ {result : Stream α ε × List (Event α ε)} {next : System α ε},
      Hands system.stream [] result → next.stream = result.1 →
      next.trace = system.trace ++ result.2 → next.nextReader = system.nextReader →
      Held next ∧ (Honoured next ↔ Honoured system ∧ True) := by
    intro result next hands stream trace readers
    have logged := held_log held hands stream trace readers
    simpa using logged
  have still : Held system ∧ (Honoured system ↔ Honoured system ∧ True) := ⟨held,by rw [and_true]⟩
  cases action with
  | started =>
    obtain ⟨_,taken⟩ := Option.ite_none_right_eq_some.mp taken
    obtain rfl := Option.some.inj taken
    exact quiet (pull_hands _) rfl rfl rfl
  | startFailed e =>
    obtain ⟨_,taken⟩ := Option.ite_none_right_eq_some.mp taken
    obtain rfl := Option.some.inj taken
    exact quiet (rsError_hands _ e) rfl rfl rfl
  | enqueue chunk =>
    obtain ⟨result,ran,rfl⟩ := Option.map_eq_some_iff.mp taken
    obtain ⟨readable,hands⟩ := rsEnqueue_hands ran
    have logged := held_log held hands (rfl : (system.log result).stream = _) rfl rfl
    simpa [Reclaimed,readable] using logged
  | close =>
    obtain rfl := Option.some.inj taken
    exact quiet (rsClose_hands _) rfl rfl rfl
  | error e =>
    obtain rfl := Option.some.inj taken
    exact quiet (rsError_hands _ e) rfl rfl rfl
  | getReader =>
    obtain ⟨_,taken⟩ := Option.ite_none_right_eq_some.mp taken
    obtain rfl := Option.some.inj taken
    refine ⟨⟨?_,?_⟩,still.2⟩
    · intro reader inside
      have older := (held.released reader inside).1
      refine ⟨Nat.lt_succ_of_lt older,?_⟩
      intro same
      exact absurd (Option.some.inj same) (Nat.ne_of_gt older)
    · intro reader holds
      obtain rfl := Option.some.inj holds
      exact Nat.lt_succ_self _
  | read reader =>
    change (if system.stream.reader = some reader then _ else _) = _ at taken
    split at taken
    next holds =>
      obtain rfl := Option.some.inj taken
      obtain ⟨served,hands,only⟩ := rsRead_hands system.stream ⟨system.nextRead,reader⟩
      obtain ⟨heldNext,exactly⟩ := held_log held hands
        (rfl : (System.log { system with nextRead := system.nextRead + 1 } _).stream = _) rfl rfl
      refine ⟨heldNext,exactly.trans ⟨fun both => ⟨both.1,trivial⟩,fun both => ⟨both.1,?_⟩⟩⟩
      intro r inside released
      obtain rfl := only r inside
      exact (held.released reader released).2 holds
    next =>
      obtain rfl := Option.some.inj taken
      exact still
  | releaseLock reader =>
    change (if system.stream.reader = some reader then _ else _) = _ at taken
    split at taken
    next holds =>
      obtain rfl := Option.some.inj taken
      refine ⟨⟨?_,?_⟩,?_⟩
      · intro other inside
        refine ⟨?_,Option.some_ne_none other ∘ Eq.symm⟩
        rcases List.mem_append.mp inside with old | now
        · exact (held.released other old).1
        · obtain rfl : other = reader := by simpa using now
          exact held.current other holds
      · intro other none_
        exact absurd none_.symm (Option.some_ne_none other)
      · simp only [Honoured,System.log,Reclaimed,and_true,List.pairwise_append]
        simp [stale]
    next =>
      obtain rfl := Option.some.inj taken
      exact still
  | cancel holder =>
    change (if system.stream.reader = holder then _ else _) = _ at taken
    split at taken
    · obtain rfl := Option.some.inj taken
      exact quiet (rsCancel_hands _) rfl rfl rfl
    · obtain rfl := Option.some.inj taken
      exact still
  | pulled =>
    obtain ⟨_,taken⟩ := Option.ite_none_right_eq_some.mp taken
    obtain rfl := Option.some.inj taken
    exact quiet (pulled_hands _) rfl rfl rfl
  | pullFailed e =>
    obtain ⟨_,taken⟩ := Option.ite_none_right_eq_some.mp taken
    obtain rfl := Option.some.inj taken
    exact quiet (pullFailed_hands _ e) rfl rfl rfl
  | setPull callable =>
    obtain rfl := Option.some.inj taken
    exact ⟨⟨held.released,held.current⟩,still.2⟩

theorem always_honoured_iff (hwm : HighWaterMark) (callable : Bool) (actions : List (Action α ε)) :
    Runs.Always step Honoured (new hwm callable) actions ↔
      Runs.Guarded step Reclaimed (new hwm callable) actions := by
  refine Runs.always_iff_guarded_unrefused step ?_ ?_ actions _ (?_ : Held _) List.Pairwise.nil
  · intro system action next held honoured taken
    obtain ⟨heldNext,exactly⟩ := held_step system action next held taken
    exact ⟨heldNext,exactly.trans (and_iff_right honoured)⟩
  · intro system action refused
    cases action with
    | enqueue chunk =>
      intro readable
      have none_ := Option.map_eq_none_iff.mp refused
      unfold rsEnqueue at none_
      rw [readable] at none_
      split at none_
      · contradiction
      · split at none_ <;> cases none_
    | _ => trivial
  · refine ⟨?_,?_⟩
    · intro reader inside
      exact absurd inside List.not_mem_nil
    · intro reader holds
      cases holds

end releases

section

variable {α ε : Type}

/-- In every run of a source and a consumer each chunk is handed to one read, in order, unless
an error or a cancellation drops what is still queued; where the source is not called again
idly, its calls are paid for by reads and enqueues, and where no chunk arrives for a read
left behind by a released reader, no released reader is served. -/
theorem delivery (hwm : HighWaterMark) (callable : Bool) (actions : List (Action α ε)) :
    Runs.Always step Delivered (new hwm callable) actions ∧
      (Runs.Guarded step Unrepeated (new hwm callable) actions →
        Runs.Always step Frugal (new hwm callable) actions) ∧
      (Runs.Guarded step Reclaimed (new hwm callable) actions →
        Runs.Always step Honoured (new hwm callable) actions) :=
  ⟨always_delivered hwm callable actions,(always_frugal_iff hwm callable actions).mpr,
    (always_honoured_iff hwm callable actions).mpr⟩

instance (system : System α ε) (action : Action α ε) : Decidable (Unrepeated system action) :=
  match action with
  | .started => inferInstanceAs (Decidable (system.starting → wants system.stream → _ = _))
  | .pulled => inferInstanceAs (Decidable (system.stream.pulling → rearms system.stream → _ = _))
  | .startFailed _ | .enqueue _ | .close | .error _ | .getReader | .read _ | .releaseLock _
  | .cancel _ | .pullFailed _ | .setPull _ => isTrue trivial

instance [DecidableEq α] [DecidableEq ε] (system : System α ε) (action : Action α ε) :
    Decidable (Reclaimed system action) :=
  match action with
  | .enqueue _ => inferInstanceAs (Decidable (system.stream.state.isReadable →
      ∀ w ∈ system.stream.waiting.head?, .release w.reader ∉ system.trace))
  | .started | .pulled | .startFailed _ | .close | .error _ | .getReader | .read _
  | .releaseLock _ | .cancel _ | .pullFailed _ | .setPull _ => isTrue trivial

/-- A source that fills the queue on demand, and a second reader after the first. -/
def relay : List (Action ℕ Unit) :=
  [.started,.enqueue 7,.pulled,.getReader,.read 0,.enqueue 8,.pulled,.releaseLock 0,.getReader,
    .read 1,.close,.read 1]

theorem relay_delivered : Runs.Always step Delivered (new (.number 1) true) relay ∧
    Runs.Always step Frugal (new (.number 1) true) relay ∧
    Runs.Always step Honoured (new (.number 1) true) relay :=
  ⟨(delivery (.number 1) true relay).1,(delivery (.number 1) true relay).2.1 (by decide),
    (delivery (.number 1) true relay).2.2 (by decide)⟩

/-- A pull that brings nothing is called again, an error drops a queued chunk, and a read of a
released reader takes the next chunk. -/
theorem idle_pull : ¬ Runs.Always step Frugal (new (.number 1) true : System ℕ Unit) [.started,.pulled] ∧
    ¬ Runs.Always step (fun system => dropped system.trace = [])
      (new (.number 1) true : System ℕ Unit) [.enqueue 7,.error ()] ∧
    ¬ Runs.Always step Honoured (new (.number 1) true : System ℕ Unit)
      [.getReader,.read 0,.releaseLock 0,.enqueue 7] := by
  refine ⟨?_,?_,?_⟩
  · rw [always_frugal_iff]
    decide
  · intro always
    have final := Runs.always_final step always rfl
    cases final
  · rw [always_honoured_iff]
    decide

end

end Sharko.Script.WebApi.Streams
