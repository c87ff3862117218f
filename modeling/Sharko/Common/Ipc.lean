import Sharko.Library.Framing
import Sharko.Library.Runs

/-! The sending half of an IPC connection (`IpcSender`, `open_sender`, `write_frame` and
`read_frame` in `crates/common/src/ipc.rs`). The clones of a sender share one state
behind a lock, so that an action is what one of them does while it holds it. How much
the connection takes before it fails is up to the action. -/

namespace Sharko.Common.Ipc
open Library Framing

def maxFrame : Nat := 256 * 1024 * 1024

/-- The encoding of the messages. -/
structure Postcard (Msg : Type) where
  toAllocvec : Msg → Option (List UInt8)
  fromBytes : List UInt8 → Option Msg

def Postcard.RoundTrip {Msg : Type} (postcard : Postcard Msg) : Prop :=
  ∀ msg bytes, postcard.toAllocvec msg = some bytes → postcard.fromBytes bytes = some msg

inductive ErrorKind where
  | invalidData
  | invalidInput
  | brokenPipe
  | connection
deriving DecidableEq

structure BufWriter where
  buf : List UInt8
  written : List UInt8
deriving DecidableEq

abbrev Limit := Option Nat

abbrev Written := BufWriter × Option Limit

def Written.andThen (r : Written) (next : BufWriter → Limit → Written) : Written :=
  match r with
  | (w,some limit) => next w limit
  | (w,none) => (w,none)

namespace BufWriter

def capacity : Nat := 64 * 1024

def direct (w : BufWriter) (bytes : List UInt8) : Limit → Written
  | none => ({w with written := w.written ++ bytes},some none)
  | some n =>
    if bytes.length ≤ n then ({w with written := w.written ++ bytes},some (some (n - bytes.length)))
    else ({w with written := w.written ++ bytes.take n},none)

def flushBuf (w : BufWriter) : Limit → Written
  | none => (⟨[],w.written ++ w.buf⟩,some none)
  | some n =>
    if w.buf.length ≤ n then (⟨[],w.written ++ w.buf⟩,some (some (n - w.buf.length)))
    else (⟨w.buf.drop n,w.written ++ w.buf.take n⟩,none)

def spare (w : BufWriter) : Nat := capacity - w.buf.length

def writeAll (w : BufWriter) (bytes : List UInt8) (limit : Limit) : Written :=
  if bytes.length < w.spare then ({w with buf := w.buf ++ bytes},some limit)
  else
    (if w.spare < bytes.length then w.flushBuf limit else (w,some limit)).andThen fun w limit =>
      if capacity ≤ bytes.length then w.direct bytes limit
      else ({w with buf := w.buf ++ bytes},some limit)

def flush (w : BufWriter) (limit : Limit) : Written :=
  (w.flushBuf limit).andThen fun w limit =>
    match limit with
    | none => (w,some none)
    | some _ => (w,none)

def writeFrame (w : BufWriter) (payload : List UInt8) (limit : Limit) : Written :=
  if 4294967296 ≤ payload.length then (w,none)
  else (w.writeAll (toLe32 payload.length) limit).andThen fun w limit => w.writeAll payload limit

def writeFrames (w : BufWriter) : List (List UInt8) → Limit → Written
  | [],limit => (w,some limit)
  | payload :: rest,limit => (w.writeFrame payload limit).andThen fun w limit => w.writeFrames rest limit

def Took (w w' : BufWriter) (bytes : List UInt8) : Prop := w'.written ++ w'.buf = w.written ++ w.buf ++ bytes

theorem andThen_success {r : Written} {next : BufWriter → Limit → Written} {w' : BufWriter} {limit' : Limit}
    (success : r.andThen next = (w',some limit')) :
    ∃ w limit, r = (w,some limit) ∧ next w limit = (w',some limit') := by
  obtain ⟨w,left⟩ := r
  cases left with
  | none => cases success
  | some limit => exact ⟨w,limit,rfl,success⟩

theorem direct_took {w w' : BufWriter} {bytes : List UInt8} {limit limit' : Limit} (empty : w.buf = [])
    (success : w.direct bytes limit = (w',some limit')) : Took w w' bytes := by
  cases limit with
  | none =>
    cases success
    simp [Took,empty]
  | some n =>
    simp only [direct] at success
    split_ifs at success
    · cases success
      simp [Took,empty]
    · cases success

theorem flushBuf_took {w w' : BufWriter} {limit limit' : Limit}
    (success : w.flushBuf limit = (w',some limit')) : w' = ⟨[],w.written ++ w.buf⟩ := by
  cases limit with
  | none =>
    cases success
    rfl
  | some n =>
    simp only [flushBuf] at success
    split_ifs at success
    · cases success
      rfl
    · cases success

theorem writeAll_took {w w' : BufWriter} {bytes : List UInt8} {limit limit' : Limit}
    (success : w.writeAll bytes limit = (w',some limit')) : Took w w' bytes := by
  unfold writeAll at success
  split_ifs at success with fits isOver' large large
  · cases success
    simp [Took]
  · obtain ⟨flushed,limit₂,first,second⟩ := andThen_success success
    have emptied := flushBuf_took first
    subst emptied
    have took := direct_took rfl second
    simpa [Took] using took
  · obtain ⟨flushed,limit₂,first,second⟩ := andThen_success success
    have emptied := flushBuf_took first
    subst emptied
    cases second
    simp [Took]
  · have bound : w.buf.length = 0 := by
      have roomy : 0 < capacity := by decide
      unfold spare at fits isOver'
      omega
    exact direct_took (List.length_eq_zero_iff.mp bound) success
  · cases success
    simp [Took]

theorem flush_took {w w' : BufWriter} {limit limit' : Limit} (success : w.flush limit = (w',some limit')) :
    w' = ⟨[],w.written ++ w.buf⟩ := by
  obtain ⟨flushed,limit₂,first,second⟩ := andThen_success success
  have emptied := flushBuf_took first
  cases limit₂ with
  | none =>
    cases second
    exact emptied
  | some n => cases second

theorem writeFrame_took {w w' : BufWriter} {payload : List UInt8} {limit limit' : Limit}
    (success : w.writeFrame payload limit = (w',some limit')) : Took w w' (frame payload) := by
  unfold writeFrame at success
  split_ifs at success
  · cases success
  · obtain ⟨headed,limit₂,first,second⟩ := andThen_success success
    have header := writeAll_took first
    have body := writeAll_took second
    unfold Took at header body ⊢
    rw [body,header,frame,List.append_assoc]

theorem writeFrames_took {w w' : BufWriter} {payloads : List (List UInt8)} {limit limit' : Limit}
    (success : w.writeFrames payloads limit = (w',some limit')) : Took w w' (payloads.flatMap frame) := by
  induction payloads generalizing w limit with
  | nil =>
    cases success
    simp [Took]
  | cons payload rest ih =>
    obtain ⟨middle,limit₂,first,second⟩ := andThen_success success
    have one := writeFrame_took first
    have others := ih second
    unfold Took at one others ⊢
    rw [others,one,List.flatMap_cons,List.append_assoc]

def Grows (w : BufWriter) (r : Written) : Prop := w.written <+: r.1.written

theorem Grows.andThen {w : BufWriter} {r : Written} {next : BufWriter → Limit → Written} (first : Grows w r)
    (second : ∀ w limit, Grows w (next w limit)) : Grows w (r.andThen next) := by
  obtain ⟨w',left⟩ := r
  cases left with
  | none => exact first
  | some limit =>
    apply first.trans
    exact second w' limit

theorem direct_grows (w : BufWriter) (bytes : List UInt8) (limit : Limit) : Grows w (w.direct bytes limit) := by
  cases limit with
  | none => exact List.prefix_append _ _
  | some n =>
    simp only [direct]
    split_ifs <;> exact List.prefix_append _ _

theorem flushBuf_grows (w : BufWriter) (limit : Limit) : Grows w (w.flushBuf limit) := by
  cases limit with
  | none => exact List.prefix_append _ _
  | some n =>
    simp only [flushBuf]
    split_ifs <;> exact List.prefix_append _ _

theorem writeAll_grows (w : BufWriter) (bytes : List UInt8) (limit : Limit) :
    Grows w (w.writeAll bytes limit) := by
  unfold writeAll
  split_ifs
  · exact List.prefix_rfl
  · apply Grows.andThen (flushBuf_grows w limit)
    intro w limit
    exact direct_grows w bytes limit
  · apply Grows.andThen (flushBuf_grows w limit)
    intro w limit
    exact List.prefix_rfl
  · exact direct_grows w bytes limit
  · exact List.prefix_rfl

theorem flush_grows (w : BufWriter) (limit : Limit) : Grows w (w.flush limit) := by
  apply Grows.andThen (flushBuf_grows w limit)
  intro w limit
  cases limit <;> exact List.prefix_rfl

theorem writeFrame_grows (w : BufWriter) (payload : List UInt8) (limit : Limit) :
    Grows w (w.writeFrame payload limit) := by
  unfold writeFrame
  split_ifs
  · exact List.prefix_rfl
  · apply Grows.andThen (writeAll_grows w _ limit)
    intro w limit
    exact writeAll_grows w payload limit

end BufWriter

inductive SendState where
  | pending (queue : List (List UInt8))
  | opened (buf : List UInt8)
  | closed
deriving DecidableEq

structure Sender (Msg : Type) where
  state : SendState
  stream : List UInt8
  attempted : Bool
  /-- The connection was given the queue. -/
  attached : Bool
  failed : Bool
  /-- The messages whose send returned `Ok`, in the order of the lock. -/
  accepted : List Msg
  /-- Those of them that were on the stream before the connection failed. -/
  delivered : List Msg

inductive Action (Msg : Type) where
  | send (msg : Msg) (limit : Limit)
  /-- A writer that is dropped still gets some bytes of its buffer out. -/
  | openSender (limit : Limit) (late : Nat)
  | close (late : Nat)

namespace Sender
variable {Msg : Type} (postcard : Postcard Msg)

def new (connected : Bool) : Sender Msg where
  state := if connected then .opened [] else .pending []
  stream := []
  attempted := connected
  attached := connected
  failed := false
  accepted := []
  delivered := []

def send (s : Sender Msg) (msg : Msg) (limit : Limit) : Sender Msg × Except ErrorKind Unit :=
  match postcard.toAllocvec msg with
  | none => (s,.error .invalidData)
  | some bytes =>
    -- The peer would drop the whole connection on an oversized frame.
    if maxFrame < bytes.length then (s,.error .invalidInput)
    else
      match s.state with
      | .pending queue =>
        ({s with state := .pending (queue ++ [bytes]), accepted := s.accepted ++ [msg]},.ok ())
      | .opened buf =>
        match (BufWriter.writeFrame ⟨buf,s.stream⟩ bytes limit).andThen BufWriter.flush with
        | (w,some _) =>
          ({s with
            state := .opened w.buf
            stream := w.written
            accepted := s.accepted ++ [msg]
            delivered := if s.failed then s.delivered else s.delivered ++ [msg]},.ok ())
        | (w,none) =>
          ({s with state := .opened w.buf, stream := w.written, failed := true},.error .connection)
      | .closed => (s,.error .brokenPipe)

def openSender (s : Sender Msg) (limit : Limit) (late : Nat) : Sender Msg :=
  match s.state with
  | .pending queue =>
    match (BufWriter.writeFrames ⟨[],[]⟩ queue limit).andThen BufWriter.flush with
    | (w,some _) =>
      {s with
        state := .opened w.buf
        stream := w.written
        attempted := true
        attached := true
        delivered := s.accepted}
    | (w,none) =>
      {s with
        state := .pending []
        stream := w.written ++ w.buf.take late
        attempted := true
        failed := true}
  | _ => {s with attempted := true}

def close (s : Sender Msg) (late : Nat) : Sender Msg :=
  match s.state with
  | .opened buf => {s with state := .closed, stream := s.stream ++ buf.take late}
  | _ => {s with state := .closed}

def step (s : Sender Msg) : Action Msg → Option (Sender Msg)
  | .send msg limit => some (s.send postcard msg limit).1
  | .openSender limit late => if s.attempted then none else some (s.openSender limit late)
  | .close late => some (s.close late)

end Sender

section
variable {Msg : Type} (postcard : Postcard Msg)

def readLoop : Nat → List UInt8 → List Msg × List UInt8
  | 0,bytes => ([],bytes)
  | fuel + 1,bytes =>
    match readFrame maxFrame bytes with
    | none => ([],bytes)
    | some (payload,rest) =>
      match postcard.fromBytes payload with
      | none => ([],bytes)
      | some msg => (msg :: (readLoop fuel rest).1,(readLoop fuel rest).2)

def received (bytes : List UInt8) : List Msg × List UInt8 := readLoop postcard bytes.length bytes

def encoded (msg : Msg) : List UInt8 := (postcard.toAllocvec msg).getD []

def frames (msgs : List Msg) : List UInt8 := msgs.flatMap fun msg => frame (encoded postcard msg)

def Sendable (msg : Msg) : Prop :=
  ∃ bytes, postcard.toAllocvec msg = some bytes ∧ bytes.length ≤ maxFrame

theorem Sendable.encoded {postcard : Postcard Msg} {msg : Msg} (sendable : Sendable postcard msg) :
    postcard.toAllocvec msg = some (encoded postcard msg) ∧ (encoded postcard msg).length ≤ maxFrame := by
  obtain ⟨bytes,encodes,small⟩ := sendable
  unfold Ipc.encoded
  rw [encodes]
  exact ⟨rfl,small⟩

theorem frames_append (first second : List Msg) :
    frames postcard (first ++ second) = frames postcard first ++ frames postcard second :=
  List.flatMap_append

theorem readLoop_frames {postcard : Postcard Msg} (roundTrip : postcard.RoundTrip) {msgs : List Msg}
    (sendable : ∀ msg ∈ msgs, Sendable postcard msg) (fuel : Nat) (rest : List UInt8) :
    readLoop postcard (msgs.length + fuel) (frames postcard msgs ++ rest) =
      (msgs ++ (readLoop postcard fuel rest).1,(readLoop postcard fuel rest).2) := by
  induction msgs with
  | nil => simp [frames]
  | cons msg others ih =>
    obtain ⟨encodes,small⟩ := (sendable msg List.mem_cons_self).encoded
    have decodes := roundTrip msg _ encodes
    have later := ih fun m member => sendable m (List.mem_cons_of_mem _ member)
    have split : frames postcard (msg :: others) ++ rest =
        frame (encoded postcard msg) ++ (frames postcard others ++ rest) := by
      simp [frames]
    have fits : (encoded postcard msg).length < 4294967296 := by
      unfold maxFrame at small
      omega
    rw [split,List.length_cons,Nat.add_right_comm,readLoop,readFrame_frame _ fits,
      if_neg (Nat.not_lt_of_le small)]
    simp only [decodes,later,List.cons_append]

theorem frames_length {msgs : List Msg} : msgs.length ≤ (frames postcard msgs).length := by
  induction msgs with
  | nil => exact Nat.zero_le _
  | cons msg others ih =>
    have nonempty := List.length_pos_iff.mpr (frame_nonempty (encoded postcard msg))
    simp only [frames,List.flatMap_cons,List.length_append,List.length_cons] at ih ⊢
    omega

theorem received_frames {postcard : Postcard Msg} (roundTrip : postcard.RoundTrip) {msgs : List Msg}
    (sendable : ∀ msg ∈ msgs, Sendable postcard msg) (rest : List UInt8) :
    ∃ more left, received postcard (frames postcard msgs ++ rest) = (msgs ++ more,left) ∧
      (rest = [] → more = [] ∧ left = []) := by
  have enough : msgs.length ≤ (frames postcard msgs).length := frames_length postcard
  obtain ⟨fuel,bytes⟩ : ∃ fuel, (frames postcard msgs ++ rest).length = msgs.length + fuel :=
    ⟨_,(Nat.add_sub_cancel' (by rw [List.length_append]; omega)).symm⟩
  refine ⟨(readLoop postcard fuel rest).1,(readLoop postcard fuel rest).2,?_,?_⟩
  · rw [received,bytes]
    exact readLoop_frames roundTrip sendable fuel rest
  · rintro rfl
    cases fuel <;> exact ⟨rfl,rfl⟩

end

namespace Sender
variable {Msg : Type} {postcard : Postcard Msg} {s s' : Sender Msg}

/-- As long as the connection has not failed, the stream is nothing before it is attached
and the whole frames of the accepted messages after that; what was delivered stays in
front for good. -/
structure Delivers (postcard : Postcard Msg) (s : Sender Msg) : Prop where
  detached : s.failed = false → s.attached = false → s.stream = []
  whole : s.failed = false → s.attached = true →
    s.stream = frames postcard s.accepted ∧ received postcard s.stream = (s.accepted,[]) ∧
      s.delivered = s.accepted
  delivered : ∃ more left, received postcard s.stream = (s.delivered ++ more,left)

structure Coherent (postcard : Postcard Msg) (s : Sender Msg) : Prop where
  sendable : ∀ msg ∈ s.accepted, Sendable postcard msg
  begins : frames postcard s.delivered <+: s.stream
  inside : ∀ msg ∈ s.delivered, msg ∈ s.accepted
  unattempted : s.attempted = false → s.failed = false
  detached : s.attached = false → s.delivered = []
  complete : s.failed = false → s.attached = true → s.delivered = s.accepted
  whole : s.failed = false → s.stream = if s.attached then frames postcard s.accepted else []
  pending : ∀ queue, s.state = .pending queue →
    s.attached = false ∧ (s.failed = false → queue = s.accepted.map (encoded postcard))
  opened : ∀ buf, s.state = .opened buf → s.attempted = true ∧ s.attached = true ∧ (s.failed = false → buf = [])

theorem Coherent.delivers (roundTrip : postcard.RoundTrip) (ok : Coherent postcard s) :
    Delivers postcard s := by
  refine ⟨?_,?_,?_⟩
  · intro fine alone
    rw [ok.whole fine,alone]
    rfl
  · intro fine attached
    have stream : s.stream = frames postcard s.accepted := by
      rw [ok.whole fine,if_pos attached]
    obtain ⟨more,left,got,nothing⟩ := received_frames roundTrip ok.sendable []
    obtain ⟨rfl,rfl⟩ := nothing rfl
    refine ⟨stream,?_,ok.complete fine attached⟩
    rw [List.append_nil,List.append_nil] at got
    rw [stream]
    exact got
  · obtain ⟨rest,stream⟩ := ok.begins
    obtain ⟨more,left,got,_⟩ := received_frames roundTrip
      (fun msg member => ok.sendable msg (ok.inside msg member)) rest
    rw [stream] at got
    exact ⟨more,left,got⟩

theorem frames_singleton (postcard : Postcard Msg) (msg : Msg) :
    frames postcard [msg] = frame (encoded postcard msg) := by
  simp [frames]

theorem Coherent.sent (ok : Coherent postcard s) {msg : Msg} {buf : List UInt8} {w : BufWriter}
    {limit limit' : Limit} (state : s.state = .opened buf) (sendable : Sendable postcard msg)
    (success : (BufWriter.writeFrame ⟨buf,s.stream⟩ (encoded postcard msg) limit).andThen BufWriter.flush =
      (w,some limit')) : Coherent postcard {s with
      state := .opened w.buf
      stream := w.written
      accepted := s.accepted ++ [msg]
      delivered := if s.failed then s.delivered else s.delivered ++ [msg]} := by
  obtain ⟨attempted,attached,emptied⟩ := ok.opened buf state
  obtain ⟨framed,limit₂,first,second⟩ := BufWriter.andThen_success success
  have took := BufWriter.writeFrame_took first
  have flushed := BufWriter.flush_took second
  subst flushed
  unfold BufWriter.Took at took
  simp only at took
  have sendables : ∀ m ∈ s.accepted ++ [msg], Sendable postcard m := by
    intro m member
    rcases List.mem_append.mp member with old | new
    · exact ok.sendable m old
    · rw [List.mem_singleton.mp new]
      exact sendable
  cases failed : s.failed with
  | true =>
    refine ⟨sendables,?_,?_,?_,?_,by simp,by simp,by simp,?_⟩
    · simp only [if_true]
      rw [took,List.append_assoc]
      exact ok.begins.trans (List.prefix_append _ _)
    · intro m member
      exact List.mem_append_left _ (ok.inside m (by simpa using member))
    · exact fun never => absurd (attempted.symm.trans never) (by simp)
    · exact fun never => absurd (attached.symm.trans never) (by simp)
    · intro buf' _
      simp [attempted,attached]
  | false =>
    have complete := ok.complete failed attached
    have stream : framed.written ++ framed.buf = frames postcard (s.accepted ++ [msg]) := by
      rw [took,emptied failed,ok.whole failed,if_pos attached,frames_append,frames_singleton,List.append_nil]
    refine ⟨sendables,?_,?_,?_,?_,?_,?_,by simp,?_⟩
    · simp only [Bool.false_eq_true,if_false]
      rw [complete]
      exact stream.symm ▸ List.prefix_rfl
    · simp only [Bool.false_eq_true,if_false,complete]
      exact fun m member => member
    · exact fun _ => rfl
    · exact fun never => absurd (attached.symm.trans never) (by simp)
    · simp [complete]
    · intro _
      simp only [attached,if_true]
      exact stream
    · intro buf' equal
      cases equal
      simp [attempted,attached]

theorem Coherent.queued (ok : Coherent postcard s) {msg : Msg} {queue : List (List UInt8)}
    (state : s.state = .pending queue) (sendable : Sendable postcard msg) : Coherent postcard {s with
      state := .pending (queue ++ [encoded postcard msg])
      accepted := s.accepted ++ [msg]} := by
  obtain ⟨alone,same⟩ := ok.pending queue state
  refine ⟨?_,ok.begins,?_,ok.unattempted,ok.detached,?_,?_,?_,by simp⟩
  · intro m member
    rcases List.mem_append.mp member with old | new
    · exact ok.sendable m old
    · rw [List.mem_singleton.mp new]
      exact sendable
  · exact fun m member => List.mem_append_left _ (ok.inside m member)
  · exact fun _ attached => absurd (alone.symm.trans attached) (by simp)
  · intro fine
    have nothing := ok.whole fine
    simpa [alone] using nothing
  · intro queue' equal
    cases equal
    refine ⟨alone,?_⟩
    intro fine
    rw [same fine,List.map_append]
    rfl

theorem send_coherent (ok : Coherent postcard s) (msg : Msg) (limit : Limit) :
    Coherent postcard (s.send postcard msg limit).1 := by
  unfold send
  cases encodes : postcard.toAllocvec msg with
  | none => exact ok
  | some bytes =>
    have same : bytes = encoded postcard msg := by
      simp [encoded,encodes]
    simp only
    by_cases large : maxFrame < bytes.length
    · rw [if_pos large]
      exact ok
    · rw [if_neg large]
      have sendable : Sendable postcard msg := ⟨bytes,encodes,Nat.le_of_not_lt large⟩
      cases state : s.state with
      | pending queue =>
        rw [same]
        exact ok.queued state sendable
      | opened buf =>
        obtain ⟨attempted,attached,_⟩ := ok.opened buf state
        have grown : BufWriter.Grows ⟨buf,s.stream⟩
            ((BufWriter.writeFrame ⟨buf,s.stream⟩ bytes limit).andThen BufWriter.flush) :=
          BufWriter.Grows.andThen (BufWriter.writeFrame_grows _ _ _) BufWriter.flush_grows
        simp only
        cases result : (BufWriter.writeFrame ⟨buf,s.stream⟩ bytes limit).andThen BufWriter.flush with
        | mk w left =>
          rw [result] at grown
          cases left with
          | some limit' =>
            rw [same] at result
            exact ok.sent state sendable result
          | none =>
            refine ⟨ok.sendable,ok.begins.trans grown,ok.inside,?_,ok.detached,by simp,by simp,by simp,?_⟩
            · exact fun never => absurd (attempted.symm.trans never) (by simp)
            · simp [attempted,attached]
      | closed => exact ok

theorem openSender_coherent (ok : Coherent postcard s) (unattempted : s.attempted = false) (limit : Limit)
    (late : Nat) : Coherent postcard (s.openSender limit late) := by
  have fine := ok.unattempted unattempted
  unfold openSender
  cases state : s.state with
  | pending queue =>
    obtain ⟨alone,same⟩ := ok.pending queue state
    simp only
    cases result : (BufWriter.writeFrames ⟨[],[]⟩ queue limit).andThen BufWriter.flush with
    | mk w left =>
      cases left with
      | some limit' =>
        obtain ⟨framed,limit₂,first,second⟩ := BufWriter.andThen_success result
        have took := BufWriter.writeFrames_took first
        have flushed := BufWriter.flush_took second
        subst flushed
        unfold BufWriter.Took at took
        have stream : framed.written ++ framed.buf = frames postcard s.accepted := by
          rw [took,same fine,frames,List.flatMap_map]
          rfl
        refine ⟨ok.sendable,?_,fun m member => member,by simp,by simp,fun _ _ => rfl,?_,by simp,?_⟩
        · simp only
          exact stream.symm ▸ List.prefix_rfl
        · intro _
          simp only [if_true]
          exact stream
        · intro buf equal
          cases equal
          simp
      | none =>
        have nothing := ok.detached alone
        refine ⟨ok.sendable,?_,ok.inside,by simp,ok.detached,by simp,by simp,by simp [alone],by simp⟩
        simp only [nothing]
        exact List.nil_prefix
  | opened buf =>
    obtain ⟨attempted,_⟩ := ok.opened buf state
    rw [unattempted] at attempted
    cases attempted
  | closed =>
    exact ⟨ok.sendable,ok.begins,ok.inside,by simp,ok.detached,ok.complete,ok.whole,
      by simp,by simp⟩

theorem close_coherent (ok : Coherent postcard s) (late : Nat) : Coherent postcard (s.close late) := by
  unfold close
  cases state : s.state with
  | opened buf =>
    obtain ⟨attempted,attached,emptied⟩ := ok.opened buf state
    refine ⟨ok.sendable,ok.begins.trans (List.prefix_append _ _),ok.inside,ok.unattempted,ok.detached,
      ok.complete,?_,by simp,by simp⟩
    intro fine
    show s.stream ++ buf.take late = if s.attached then frames postcard s.accepted else []
    rw [emptied fine,List.take_nil,List.append_nil]
    exact ok.whole fine
  | pending queue =>
    exact ⟨ok.sendable,ok.begins,ok.inside,ok.unattempted,ok.detached,ok.complete,ok.whole,by simp,by simp⟩
  | closed =>
    exact ⟨ok.sendable,ok.begins,ok.inside,ok.unattempted,ok.detached,ok.complete,ok.whole,by simp,by simp⟩

theorem step_coherent (ok : Coherent postcard s) {a : Action Msg} (taken : s.step postcard a = some s') :
    Coherent postcard s' := by
  cases a with
  | send msg limit =>
    cases taken
    exact send_coherent ok msg limit
  | openSender limit late =>
    simp only [step] at taken
    split_ifs at taken with attempted
    cases taken
    exact openSender_coherent ok (by simpa using attempted) limit late
  | close late =>
    cases taken
    exact close_coherent ok late

theorem new_coherent (connected : Bool) : Coherent postcard (new connected : Sender Msg) := by
  cases connected with
  | false => exact ⟨by simp [new],by simp [new,frames],by simp [new],by simp [new],by simp [new],by simp [new],
      by simp [new],by simp [new],by simp [new]⟩
  | true => exact ⟨by simp [new],by simp [new,frames],by simp [new],by simp [new],by simp [new],by simp [new],
      by simp [new,frames],by simp [new],by simp [new]⟩

/-- A message is refused for its size exactly if the reader would refuse its frame, and
then nothing happens. -/
theorem send_refused (s : Sender Msg) {msg : Msg} {bytes : List UInt8}
    (encodes : postcard.toAllocvec msg = some bytes) (limit : Limit) :
    ((s.send postcard msg limit).2 = .error .invalidInput ↔ maxFrame < bytes.length) ∧
      (maxFrame < bytes.length → (s.send postcard msg limit).1 = s) := by
  unfold send
  simp only [encodes]
  by_cases large : maxFrame < bytes.length
  · simp [large]
  · simp only [large,if_false,iff_false,false_implies,and_true]
    cases s.state with
    | pending queue => simp
    | opened buf =>
      simp only
      cases (BufWriter.writeFrame ⟨buf,s.stream⟩ bytes limit).andThen BufWriter.flush with
      | mk w left => cases left <;> simp
    | closed => simp

end Sender

/-- What the peer of a sender gets, along every run of its clones: until the connection
fails, exactly the accepted messages once it is attached; an oversized message is refused
and leaves the stream as it was. -/
theorem sender_delivers {Msg : Type} (postcard : Postcard Msg) (roundTrip : postcard.RoundTrip)
    (connected : Bool) (actions : List (Action Msg)) :
    Runs.Always (Sender.step postcard) (fun s => s.Delivers postcard ∧
      ∀ msg bytes limit, postcard.toAllocvec msg = some bytes →
        ((s.send postcard msg limit).2 = .error .invalidInput ↔ maxFrame < bytes.length) ∧
        (maxFrame < bytes.length → (s.send postcard msg limit).1 = s)) (Sender.new connected) actions := by
  apply Runs.always_of_invariant (Sender.step postcard)
    (fun s a s' ok taken => Sender.step_coherent ok taken) ?_ (Sender.new_coherent connected)
  intro s ok
  refine ⟨ok.delivers roundTrip,?_⟩
  intro msg bytes limit encodes
  exact s.send_refused encodes limit

def bytewise : Postcard UInt8 where
  toAllocvec msg := some [msg]
  fromBytes
    | [msg] => some msg
    | _ => none

theorem sender_delivers_bytewise : Runs.Always (Sender.step bytewise) (fun s => s.Delivers bytewise ∧
      ∀ msg bytes limit, bytewise.toAllocvec msg = some bytes →
        ((s.send bytewise msg limit).2 = .error .invalidInput ↔ maxFrame < bytes.length) ∧
        (maxFrame < bytes.length → (s.send bytewise msg limit).1 = s))
      (Sender.new false) [.send 7 none,.openSender none 0,.send 8 none,.close 0] :=
  sender_delivers bytewise (by rintro msg bytes ⟨⟩; rfl) false _

/-- What a peer that connected has received is what was accepted. -/
def Sender.Exact (s : Sender UInt8) : Prop :=
  (∀ queue, s.state ≠ .pending queue) → received bytewise s.stream = (s.accepted,[])

/-- A queued message whose peer never connects is lost, and a message whose send failed
is delivered with the next one. -/
theorem accepted_not_received :
    ¬ Runs.Always (Sender.step bytewise) Sender.Exact (Sender.new false) [.send 7 none,.close 0] ∧
    ¬ Runs.Always (Sender.step bytewise) Sender.Exact (Sender.new true) [.send 7 (some 0),.send 8 none] := by
  constructor
  · intro always
    have exact' := Runs.always_final (Sender.step bytewise) always rfl
    have got : received bytewise [] = ([7],[]) := exact' (by intro queue; exact nofun)
    revert got
    decide
  · intro always
    have exact' := Runs.always_final (Sender.step bytewise) always rfl
    have got : received bytewise [1,0,0,0,7,1,0,0,0,8] = ([8],[]) := exact' (by intro queue; exact nofun)
    revert got
    decide

end Sharko.Common.Ipc
