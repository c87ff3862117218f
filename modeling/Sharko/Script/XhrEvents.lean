import Mathlib.Data.List.Infix
import Sharko.Script.Xhr

/-! Which events and states an `XMLHttpRequest` shows for each of its requests. The handlers may
end a request at any time; the bodies that look at the generation before they go on keep the
order. -/

namespace Sharko.Script.Xhr

open Library

namespace Entry

def ends : Entry → Option Nat
  | opened g | aborted g => some g
  | _ => none

def live : Entry → Option Nat
  | fired g _ _ _ | changed g _ _ | reset g => some g
  | _ => none

/-- A terminal event or `loadend` of the request, on the object. -/
def closing (r : Nat) : Entry → Option Name
  | fired _ request false name => if request = r ∧ name.closing then some name else none
  | _ => none

def readyState (r : Nat) : Entry → Option ReadyState
  | changed _ request state => if request = r then some state else none
  | _ => none

def request : Entry → Option Nat
  | sent r | fired _ r _ _ | changed _ r _ => some r
  | _ => none

theorem closing_other {e : Entry} {r : Nat} (other : ∀ q ∈ e.request,q ≠ r) : e.closing r = none := by
  cases e with
  | fired live q upload name =>
    have differs : q ≠ r := other q rfl
    cases upload <;> simp [closing,differs]
  | _ => rfl

theorem readyState_other {e : Entry} {r : Nat} (other : ∀ q ∈ e.request,q ≠ r) : e.readyState r = none := by
  cases e with
  | changed live q state =>
    have differs : q ≠ r := other q rfl
    simp [readyState,differs]
  | _ => rfl

end Entry

def endings (log : List Entry) (r : Nat) : List Name := log.filterMap (Entry.closing r)

def states (log : List Entry) (r : Nat) : List ReadyState := log.filterMap (Entry.readyState r)

/-- One terminal event, and then `loadend`. -/
def Settled (names : List Name) : Prop := ∃ t,t.terminal = true ∧ names = [.loadend,t]

/-- On the way there. -/
def Once (names : List Name) : Prop :=
  names = [] ∨ (∃ t,t.terminal = true ∧ names = [t]) ∨ Settled names

section log

variable {log : List Entry} {e : Entry} {r : Nat}

theorem endings_other (other : ∀ q ∈ e.request,q ≠ r) : endings (e :: log) r = endings log r := by
  simp [endings,Entry.closing_other other]

theorem states_other (other : ∀ q ∈ e.request,q ≠ r) : states (e :: log) r = states log r := by
  simp [states,Entry.readyState_other other]

theorem endings_unknown (unknown : ∀ e ∈ log,∀ q ∈ e.request,q ≠ r) : endings log r = [] := by
  rw [endings,List.filterMap_eq_nil_iff]
  intro e member
  exact Entry.closing_other (unknown e member)

theorem states_unknown (unknown : ∀ e ∈ log,∀ q ∈ e.request,q ≠ r) : states log r = [] := by
  rw [states,List.filterMap_eq_nil_iff]
  intro e member
  exact Entry.readyState_other (unknown e member)

end log

def Forward (states : List ReadyState) : Prop :=
  states.Pairwise fun later earlier => earlier.code < later.code

def Silent (log : List Entry) : Prop :=
  log.Pairwise fun later earlier => ∀ g ∈ earlier.ends,∀ live ∈ later.live,g < live

structure Orderly (s : Object) : Prop where
  once : ∀ r,Once (endings s.log r)
  settles : s.stack = [] → ∀ r,.sent r ∈ s.log →
    Settled (endings s.log r) ∨ .opened r ∈ s.log ∨
      r = s.gen ∧ s.send = true ∧ ∃ p ∈ s.pending,p.gen = r
  forward : ∀ r,Forward (states s.log r)
  silent : Silent s.log

def quiet (reads : Reads) (call : Call) : List Instr → Bool
  | [] => true
  | .check :: _ => true
  | .fetch :: _ => true
  | .reset :: rest => quiet reads call rest
  | .fireUpload _ :: rest => !call.uploadListeners && quiet reads call rest
  | .offer :: rest =>
    !(call.body && reads.uploadListeners) && quiet reads { call with uploadListeners := false } rest
  | .fire _ :: _ => false
  | .ready _ :: _ => false
  | .unsend :: _ => false

/-- No handler ends the generation of a body that goes on without looking, and `abort` is not
called by the handlers of the `DONE` of a response. -/
def Undisturbed (s : Object) : Action → Prop
  | .return_ reads => ∀ f ∈ s.stack.head?,f.live = s.gen ∨ quiet reads f.toCall f.rest = true
  | .abort => s.state = .done →
      ∀ f ∈ s.stack.head?,f.live = s.gen → f.rest.head? ≠ some .check
  | _ => True


/-! Bodies. -/

def due (rest : List Instr) : List Name :=
  rest.filterMap fun
    | .fire name => if name.closing then some name else none
    | _ => none

def coming (rest : List Instr) : List ReadyState :=
  rest.filterMap fun
    | .ready state => some state
    | _ => none

def heedless : List Instr → Bool
  | .fire _ :: _ => true
  | .ready _ :: _ => true
  | .unsend :: _ => true
  | .fireUpload _ :: rest => heedless rest
  | _ => false

def Instr.plain : Instr → Bool
  | offer | fetch | reset => false
  | _ => true

structure Tidy (body : List Instr) : Prop where
  plain : ∀ i ∈ body,i.plain = true
  closes : Settled (due body).reverse
  finished : ∀ past ∈ body.inits,.unsend ∈ past → (coming past).getLast? = some .done
  late : ∀ past ∈ body.inits,due past ≠ [] → .unsend ∈ past
  paired : ∀ past ∈ body.inits,(coming past).getLast? = some .done →
    past.getLast? ≠ some (.ready .done) → .unsend ∈ past
  unsends : .unsend ∈ body
  heedless : ∀ rest ∈ body.tails,due rest ≠ [] → rest.head? ≠ some .check → heedless rest = true
  later : ∀ state ∈ coming body,1 < state.code
  forward : Forward (coming body).reverse

instance (names : List Name) : Decidable (Settled names) :=
  decidable_of_iff (names ∈ [[.loadend,.load],[.loadend,.error],[.loadend,.abort],[.loadend,.timeout]])
    (by
      constructor
      · simp only [List.mem_cons,List.not_mem_nil,or_false]
        rintro (rfl | rfl | rfl | rfl) <;> exact ⟨_,by decide,rfl⟩
      · rintro ⟨t,terminal,rfl⟩
        cases t <;> simp_all [Name.terminal])

instance (states : List ReadyState) : Decidable (Forward states) := by
  unfold Forward
  infer_instance

theorem completing_tidy : Tidy completing := by
  constructor <;> decide

theorem aborting_tidy : Tidy aborting := by
  constructor <;> decide

theorem requestError_tidy {kind : Name} (failure : kind = .error ∨ kind = .timeout) :
    Tidy (requestError kind) := by
  rcases failure with rfl | rfl <;> constructor <;> decide


@[simp] theorem due_nil : due [] = [] := rfl

@[simp] theorem coming_nil : coming [] = [] := rfl

@[simp] theorem due_append (past rest : List Instr) : due (past ++ rest) = due past ++ due rest :=
  List.filterMap_append

@[simp] theorem coming_append (past rest : List Instr) :
    coming (past ++ rest) = coming past ++ coming rest :=
  List.filterMap_append

theorem heedless_not_quiet {rest : List Instr} (goes : heedless rest = true) (reads : Reads)
    (call : Call) (coda : List Instr) : quiet reads call (rest ++ coda) = false := by
  induction rest with
  | nil => cases goes
  | cons i rest ih =>
    cases i with
    | fireUpload name =>
      have later := ih goes
      simp [quiet,later]
    | fire => rfl
    | ready => rfl
    | unsend => rfl
    | _ => cases goes

theorem proceed_quiet {reads : Reads} {call : Call} {rest : List Instr} {s : Object}
    (dead : call.live ≠ s.gen) (nothing : quiet reads call rest = true)
    (undone : s.state = .done → .reset ∉ rest) : s.proceed reads call rest = s := by
  induction rest generalizing call with
  | nil => rfl
  | cons i rest ih =>
    cases i with
    | fire => cases nothing
    | ready => cases nothing
    | unsend => cases nothing
    | check => simp [Object.proceed,dead]
    | fetch => simp [Object.proceed,dead]
    | fireUpload name =>
      simp only [quiet,Bool.and_eq_true,Bool.not_eq_true'] at nothing
      rw [Object.proceed,if_neg (by simp [nothing.1])]
      exact ih dead nothing.2 fun h member => undone h (List.mem_cons_of_mem _ member)
    | offer =>
      simp only [quiet,Bool.and_eq_true,Bool.not_eq_true'] at nothing
      rw [Object.proceed,if_neg (by simp [nothing.1])]
      exact ih dead nothing.2 fun h member => undone h (List.mem_cons_of_mem _ member)
    | reset =>
      have stays : s.state ≠ .done := fun h => undone h List.mem_cons_self
      rw [Object.proceed,if_neg stays]
      exact ih dead nothing fun h => absurd h stays

/-! What holds of the log whatever the object is doing: all but the request in hand is finished. -/

def Doomed (gen : Nat) (stack : List Frame) : Prop :=
  ∃ f ∈ stack,f.live < gen ∧ ∀ reads,quiet reads f.toCall f.rest = false

def Accounted (gen : Nat) (stack : List Frame) (log : List Entry) (r : Nat) : Prop :=
  .sent r ∈ log → Settled (endings log r) ∨ .opened r ∈ log ∨ Doomed gen stack

structure Held (gen : Nat) (log : List Entry) (stack : List Frame) (cur : Nat) : Prop where
  ended : ∀ e ∈ log,∀ g ∈ e.ends,g < gen
  known : ∀ e ∈ log,∀ r ∈ e.request,r ≤ gen
  silent : Silent log
  frames : ∀ f ∈ stack,f.live ≤ gen
  once : ∀ r ≠ cur,Once (endings log r)
  forward : ∀ r ≠ cur,Forward (states log r)
  accounted : ∀ r ≠ cur,Accounted gen stack log r

theorem Doomed.push {gen : Nat} {stack : List Frame} (doomed : Doomed gen stack) (f : Frame) :
    Doomed gen (f :: stack) := by
  obtain ⟨g,member,dead⟩ := doomed
  exact ⟨g,List.mem_cons_of_mem _ member,dead⟩

theorem Doomed.older {gen : Nat} {stack : List Frame} (doomed : Doomed gen stack) : Doomed (gen + 1) stack := by
  obtain ⟨g,member,dead,speaks⟩ := doomed
  exact ⟨g,member,Nat.lt_succ_of_lt dead,speaks⟩

theorem Doomed.pop {gen : Nat} {stack : List Frame} {f : Frame} (doomed : Doomed gen (f :: stack))
    (returns : f.live = gen ∨ ∃ reads,quiet reads f.toCall f.rest = true) : Doomed gen stack := by
  obtain ⟨g,member,dead,speaks⟩ := doomed
  rcases List.mem_cons.mp member with rfl | member
  · rcases returns with live | ⟨reads,nothing⟩
    · exact absurd live (Nat.ne_of_lt dead)
    · rw [speaks reads] at nothing
      cases nothing
  · exact ⟨g,member,dead,speaks⟩

namespace Held

variable {gen cur : Nat} {log : List Entry} {stack : List Frame} {e : Entry} {f : Frame}

theorem record (held : Held gen log stack cur) (ends : e.ends = none)
    (live : ∀ g ∈ e.live,g = gen) (mine : ∀ r ∈ e.request,r = cur) (bound : cur ≤ gen) :
    Held gen (e :: log) stack cur := by
  have elsewhere : ∀ r ≠ cur,∀ q ∈ e.request,q ≠ r := by
    rintro r other q member rfl
    exact other (mine q member)
  constructor
  · rw [List.forall_mem_cons,ends]
    exact ⟨nofun,held.ended⟩
  · rw [List.forall_mem_cons]
    refine ⟨?_,held.known⟩
    intro r member
    rw [mine r member]
    exact bound
  · refine List.pairwise_cons.mpr ⟨?_,held.silent⟩
    intro e' member g ended live' isLive
    rw [live live' isLive]
    exact held.ended e' member g ended
  · exact held.frames
  · intro r other
    rw [endings_other (elsewhere r other)]
    exact held.once r other
  · intro r other
    rw [states_other (elsewhere r other)]
    exact held.forward r other
  · intro r other sent
    rw [endings_other (elsewhere r other)]
    have earlier : .sent r ∈ log := by
      rcases List.mem_cons.mp sent with rfl | earlier
      · exact absurd rfl (elsewhere r other r rfl)
      · exact earlier
    rcases held.accounted r other earlier with settled | opened | doomed
    · exact .inl settled
    · exact .inr (.inl (List.mem_cons_of_mem _ opened))
    · exact .inr (.inr doomed)

theorem push (held : Held gen log stack cur) (live : f.live ≤ gen) : Held gen log (f :: stack) cur where
  __ := held
  frames := List.forall_mem_cons.mpr ⟨live,held.frames⟩
  accounted r other sent :=
    (held.accounted r other sent).imp_right fun later => later.imp_right fun doomed => doomed.push f

theorem pop (held : Held gen log (f :: stack) cur)
    (returns : f.live = gen ∨ ∃ reads,quiet reads f.toCall f.rest = true) : Held gen log stack cur where
  __ := held
  frames := (List.forall_mem_cons.mp held.frames).2
  accounted r other sent :=
    (held.accounted r other sent).imp_right fun later => later.imp_right fun doomed => doomed.pop returns

theorem enter (held : Held gen log stack cur) (ends : e.ends = some gen) (live : e.live = none)
    (request : e.request = none) : Held (gen + 1) (e :: log) stack cur := by
  have elsewhere : ∀ r,∀ q ∈ e.request,q ≠ r := by
    intro r q member
    rw [request] at member
    cases member
  constructor
  · rw [List.forall_mem_cons,ends]
    refine ⟨?_,fun e' member g ended => Nat.lt_succ_of_lt (held.ended e' member g ended)⟩
    rintro g ⟨⟩
    exact Nat.lt_succ_self gen
  · rw [List.forall_mem_cons,request]
    exact ⟨nofun,fun e' member r mine => Nat.le_succ_of_le (held.known e' member r mine)⟩
  · refine List.pairwise_cons.mpr ⟨?_,held.silent⟩
    intro e' member g ended live' isLive
    rw [live] at isLive
    cases isLive
  · exact fun f member => Nat.le_succ_of_le (held.frames f member)
  · intro r other
    rw [endings_other (elsewhere r)]
    exact held.once r other
  · intro r other
    rw [states_other (elsewhere r)]
    exact held.forward r other
  · intro r other sent
    rw [endings_other (elsewhere r)]
    have earlier : .sent r ∈ log := by
      rcases List.mem_cons.mp sent with rfl | earlier
      · cases ends
      · exact earlier
    rcases held.accounted r other earlier with settled | opened | doomed
    · exact .inl settled
    · exact .inr (.inl (List.mem_cons_of_mem _ opened))
    · exact .inr (.inr doomed.older)

theorem all (held : Held gen log stack cur) (once : Once (endings log cur))
    (forward : Forward (states log cur)) (accounted : Accounted gen stack log cur) (r : Nat) :
    Once (endings log r) ∧ Forward (states log r) ∧ Accounted gen stack log r := by
  by_cases same : r = cur
  · subst same
    exact ⟨once,forward,accounted⟩
  · exact ⟨held.once r same,held.forward r same,held.accounted r same⟩

theorem turn (held : Held gen log stack cur)
    (all : ∀ r,Once (endings log r) ∧ Forward (states log r) ∧ Accounted gen stack log r)
    (next : Nat) : Held gen log stack next where
  __ := held
  once r _ := (all r).1
  forward r _ := (all r).2.1
  accounted r _ := (all r).2.2

end Held

/-- A body that closes its request has got past `past`; the frames under it are `stack`. -/
structure Closing (s : Object) (call : Call) (stack : List Frame)
    (past rest coda : List Instr) (base : List ReadyState) : Prop where
  tidy : Tidy (past ++ rest)
  live : call.live = s.gen
  bound : call.request ≤ s.gen
  endings : endings s.log call.request = (due past).reverse
  states : states s.log call.request = (coming past).reverse ++ base
  baseForward : Forward base
  below : ∀ earlier ∈ base,∀ later ∈ coming (past ++ rest),earlier.code < later.code
  state : s.state = ((coming past).getLast?).getD .opened
  send : s.send = true ↔ .unsend ∉ past
  coda : (coda = [] ∧ call.request = s.gen ∧ ∀ f ∈ stack,f.rest = []) ∨
    coda = [.reset] ∧ .unsend ∈ past ∧ .check ∉ past ++ rest ∧ .sent s.gen ∉ s.log
  rests : ∀ f ∈ stack,f.live = s.gen → f.rest = []

structure Fresh (log : List Entry) (r : Nat) : Prop where
  endings : endings log r = []
  states : states log r = [] ∨ states log r = [.opened]

inductive Phase (s : Object) (cur : Nat) : Prop
  | unsent (state : s.state = .unsent) (send : s.send = false) (cur_eq : cur = s.gen) (notSent : .sent cur ∉ s.log)
      (once : Once (endings s.log cur)) (forward : Forward (states s.log cur))
      (rests : ∀ f ∈ s.stack,f.live = s.gen → f.rest = [])
  | opened (state : s.state = .opened) (send : s.send = false) (cur_eq : cur = s.gen)
      (notSent : .sent cur ∉ s.log) (fresh : Fresh s.log cur)
      (rests : ∀ f ∈ s.stack,f.live = s.gen → f.rest = [])
  | sent (state : s.state = .opened) (send : s.send = true) (cur_eq : cur = s.gen)
      (fresh : Fresh s.log cur) (awaited : ∃ p ∈ s.pending,p.gen = cur)
      (rests : ∀ f ∈ s.stack,f.live = s.gen → f.rest = [])
  | done (state : s.state = .done) (send : s.send = false) (cur_eq : cur = s.gen)
      (settled : Settled (endings s.log cur)) (forward : Forward (states s.log cur))
      (rests : ∀ f ∈ s.stack,f.rest = [])
  | sending (f : Frame) (stack : List Frame) (top : s.stack = f :: stack)
      (state : s.state = .opened) (send : s.send = true) (cur_eq : cur = s.gen)
      (fresh : Fresh s.log cur) (live : f.live = s.gen) (request : f.request = cur)
      (rest : f.rest = [.offer,.fetch] ∨ f.rest = [.fetch])
      (rests : ∀ f ∈ stack,f.live = s.gen → f.rest = [])
  | closing (f : Frame) (stack : List Frame) (top : s.stack = f :: stack)
      (past rest coda : List Instr) (base : List ReadyState)
      (closing : Closing s f.toCall stack past rest coda base)
      (rest_eq : f.rest = rest ++ coda) (isOver : s.state = .done → s.send = false)
      (cur_eq : cur = f.request)

def Invariant (s : Object) : Prop := ∃ cur,Held s.gen s.log s.stack cur ∧ Phase s cur

namespace Closing

variable {s : Object} {call : Call} {stack : List Frame} {past rest coda : List Instr}
  {base : List ReadyState}

theorem past_mem (past rest : List Instr) : past ∈ (past ++ rest).inits :=
  (List.mem_inits _ _).mpr (List.prefix_append past rest)

theorem rest_mem (past rest : List Instr) : rest ∈ (past ++ rest).tails :=
  (List.mem_tails _ _).mpr (List.suffix_append past rest)

theorem due_split (closing : Closing s call stack past rest coda base) :
    ∃ t,t.terminal = true ∧ due past ++ due rest = [t,.loadend] := by
  obtain ⟨t,terminal,whole⟩ := closing.tidy.closes
  refine ⟨t,terminal,?_⟩
  rw [← due_append,← List.reverse_reverse (due (past ++ rest)),whole]
  rfl

theorem once (closing : Closing s call stack past rest coda base) : Once (Xhr.endings s.log call.request) := by
  obtain ⟨t,terminal,whole⟩ := closing.due_split
  rw [closing.endings]
  rcases List.append_eq_cons_iff.mp whole with ⟨none,-⟩ | ⟨tail,some,later⟩
  · exact .inl (by rw [none]; rfl)
  · rcases List.append_eq_cons_iff.mp later.symm with ⟨none,-⟩ | ⟨tail',some',later'⟩
    · exact .inr (.inl ⟨t,terminal,by rw [some,none]; rfl⟩)
    · have last : tail' = [] := (List.append_eq_nil_iff.mp later'.symm).1
      exact .inr (.inr ⟨t,terminal,by rw [some,some',last]; rfl⟩)

theorem settled (closing : Closing s call stack past rest coda base) (isOver : due rest = []) :
    Settled (Xhr.endings s.log call.request) := by
  obtain ⟨t,terminal,whole⟩ := closing.due_split
  rw [isOver,List.append_nil] at whole
  exact ⟨t,terminal,by rw [closing.endings,whole]; rfl⟩

theorem forward (closing : Closing s call stack past rest coda base) :
    Forward (Xhr.states s.log call.request) := by
  have whole := closing.tidy.forward
  rw [coming_append,List.reverse_append] at whole
  rw [closing.states]
  refine List.pairwise_append.mpr ⟨(List.pairwise_append.mp whole).2.1,closing.baseForward,?_⟩
  intro later member earlier under
  exact closing.below earlier under later (by simp [List.mem_reverse.mp member])

theorem done_of_past (closing : Closing s call stack past rest coda base)
    (unsent : .unsend ∈ past) : s.state = .done := by
  rw [closing.state,closing.tidy.finished past (past_mem past rest) unsent]
  rfl

theorem done_of_unsent (closing : Closing s call stack past rest coda base)
    (send : s.send = false) : s.state = .done := by
  refine closing.done_of_past ?_
  by_contra still
  rw [closing.send.mpr still] at send
  cases send

theorem endings_of_undone (closing : Closing s call stack past rest coda base)
    (undone : s.state ≠ .done) : Xhr.endings s.log call.request = [] := by
  have none : due past = [] := by
    by_contra some
    exact undone (closing.done_of_past (closing.tidy.late past (past_mem past rest) some))
  rw [closing.endings,none]
  rfl

theorem state_ne_unsent (closing : Closing s call stack past rest coda base) : s.state ≠ .unsent := by
  rw [closing.state]
  intro unsent
  cases last : (coming past).getLast? with
  | none =>
    rw [last] at unsent
    cases unsent
  | some state =>
    rw [last] at unsent
    have high := closing.tidy.later state (by simp [List.mem_of_getLast? last])
    rw [show state = .unsent from unsent] at high
    exact absurd high (by decide)

theorem states_of_undone (closing : Closing s call stack past rest coda base) (undone : s.state ≠ .done) :
    ∀ state ∈ Xhr.states s.log call.request,state.code < ReadyState.done.code := by
  have isOver : .done ∈ coming (past ++ rest) :=
    List.mem_of_getLast?
      (closing.tidy.finished _ ((List.mem_inits _ _).mpr (List.prefix_refl _)) closing.tidy.unsends)
  rw [closing.states]
  refine List.forall_mem_append.mpr ⟨?_,fun earlier member => closing.below earlier member _ isOver⟩
  cases last : (coming past).getLast? with
  | none => simp [List.getLast?_eq_none_iff.mp last]
  | some state =>
    obtain ⟨before,split⟩ := List.getLast?_eq_some_iff.mp last
    have current : s.state = state := by rw [closing.state,last]; rfl
    have small : state.code < ReadyState.done.code := by
      cases state <;> first | decide | exact absurd current undone
    have sorted := closing.tidy.forward
    rw [coming_append,List.reverse_append,split,List.reverse_append] at sorted
    have under := (List.pairwise_cons.mp (List.pairwise_append.mp sorted).2.1).1
    rw [split,List.reverse_append]
    exact List.forall_mem_cons.mpr ⟨small,fun earlier member => (under earlier member).trans small⟩

theorem inFlight_of_undone (closing : Closing s call stack past rest coda base)
    (undone : s.state ≠ .done) : s.inFlight := by
  cases state : s.state with
  | unsent => exact absurd state closing.state_ne_unsent
  | opened =>
    refine .inl ⟨state,?_⟩
    cases send : s.send with
    | true => rfl
    | false => exact absurd (closing.done_of_unsent send) undone
  | headers => exact .inr (.inl state)
  | loading => exact .inr (.inr state)
  | done => exact absurd state undone

/-- Once such a body is dead it has closed its request, or must not be returned to, or will stop
where it looks at the generation. -/
theorem dead (closing : Closing s call stack past rest coda base) {f : Frame}
    (rest_eq : f.rest = rest ++ coda) {gen : Nat} (older : f.live < gen) {stack : List Frame} (member : f ∈ stack)
    (heedless : f.rest.head? ≠ some .check) : Settled (Xhr.endings s.log call.request) ∨ Doomed gen stack := by
  by_cases isOver : due rest = []
  · exact .inl (closing.settled isOver)
  · have nonempty : rest ≠ [] := by
      rintro rfl
      exact isOver rfl
    have same : f.rest.head? = rest.head? := by
      rw [rest_eq,List.head?_append_of_ne_nil _ nonempty]
    have goes := closing.tidy.heedless rest (rest_mem past rest) isOver (same ▸ heedless)
    refine .inr ⟨f,member,older,?_⟩
    intro reads
    rw [rest_eq]
    exact heedless_not_quiet goes reads _ _

variable {i : Instr}

theorem advance (closing : Closing s call stack past (i :: rest) coda base) {s' : Object} (gen : s'.gen = s.gen)
    (endings : Xhr.endings s'.log call.request = due [i] ++ Xhr.endings s.log call.request)
    (states : Xhr.states s'.log call.request = coming [i] ++ Xhr.states s.log call.request)
    (state : s'.state = ((coming [i]).getLast?).getD s.state)
    (send : s'.send = true ↔ s.send = true ∧ i ≠ .unsend) (sent : .sent s'.gen ∈ s'.log → .sent s.gen ∈ s.log) :
    Closing s' call stack (past ++ [i]) rest coda base where
  tidy := List.append_cons past i rest ▸ closing.tidy
  live := closing.live.trans gen.symm
  bound := gen ▸ closing.bound
  endings := by
    rw [endings,closing.endings,due_append,List.reverse_append]
    congr 1
    cases i <;> try rfl
    simp only [due,List.filterMap_cons,List.filterMap_nil]
    split <;> rfl
  states := by
    rw [states,closing.states,coming_append,List.reverse_append,List.append_assoc]
    cases i <;> rfl
  baseForward := closing.baseForward
  below := List.append_cons past i rest ▸ closing.below
  state := by
    rw [state,closing.state,coming_append,List.getLast?_append]
    cases (coming [i]).getLast? <;> rfl
  send := by
    rw [send,closing.send]
    simp [eq_comm]
  coda := by
    rw [gen,List.append_assoc]
    refine closing.coda.imp_right ?_
    rintro ⟨coda_eq,unsent,checks,notSent⟩
    refine ⟨coda_eq,List.mem_append_left _ unsent,checks,?_⟩
    exact gen ▸ fun member => notSent (sent member)
  rests := gen ▸ closing.rests

end Closing

theorem Invariant.of_phase {s : Object} {cur : Nat} (held : Held s.gen s.log s.stack cur)
    (phase : Phase s cur) : Invariant s := ⟨cur,held,phase⟩

namespace Closing

variable {s : Object} {call : Call} {past rest coda : List Instr} {base : List ReadyState}

theorem ended {stack : List Frame} (closing : Closing s call stack past [] coda base) :
    s.state = .done ∧ s.send = false := by
  have unsent : .unsend ∈ past := by simpa using closing.tidy.unsends
  refine ⟨closing.done_of_past unsent,?_⟩
  cases send : s.send with
  | false => rfl
  | true => exact absurd unsent (closing.send.mp send)

theorem isOver (closing : Closing s call s.stack past [] coda base)
    (held : Held s.gen s.log s.stack call.request) (reads : Reads) : Invariant (s.proceed reads call coda) := by
  obtain ⟨state,send⟩ := closing.ended
  have settled := closing.settled rfl
  rcases closing.coda with ⟨rfl,mine,rests⟩ | ⟨rfl,-,-,notSent⟩
  · exact ⟨_,held,.done state send mine settled closing.forward rests⟩
  · have recorded := held.record (e := .reset call.live) rfl
      (by rintro g ⟨⟩; exact closing.live) nofun closing.bound
    have settled' : Settled (Xhr.endings (.reset call.live :: s.log) call.request) := settled
    have all := recorded.all (.inr (.inr settled')) closing.forward fun _ => .inl settled'
    have proceeds : s.proceed reads call [.reset] =
        { s with state := .unsent,log := .reset call.live :: s.log } := by
      simp [Object.proceed,state]
    rw [proceeds]
    exact ⟨s.gen,recorded.turn all _,
      .unsent rfl send rfl (by simpa using notSent) (all _).1 (all _).2.1 closing.rests⟩

theorem fired (closing : Closing s call s.stack past (i :: rest) coda base)
    (held : Held s.gen s.log s.stack call.request) (upload : Bool) (name : Name)
    (due_i : due [i] = if upload = false ∧ name.closing then [name] else [])
    (coming_i : coming [i] = []) (unsend : i ≠ .unsend) :
    Invariant (s.dispatch call upload name (rest ++ coda)) := by
  have next : Closing (s.dispatch call upload name (rest ++ coda)) call s.stack
      (past ++ [i]) rest coda base := by
    refine closing.advance rfl ?_ ?_ ?_ ?_ ?_
    · rw [due_i]
      cases upload <;> cases closes : name.closing <;>
        simp [Object.dispatch,Xhr.endings,Entry.closing,List.filterMap_cons,closes]
    · simp [coming_i,Object.dispatch,Xhr.states,Entry.readyState,List.filterMap_cons]
    · simp [coming_i,Object.dispatch]
    · simp [Object.dispatch,unsend]
    · simp [Object.dispatch]
  have held' := (held.record (e := .fired call.live call.request upload name) rfl
    (by rintro g ⟨⟩; exact closing.live) (by rintro r ⟨⟩; rfl) closing.bound).push
    (f := { call with rest := rest ++ coda }) (Nat.le_of_eq closing.live)
  have isOver : s.state = .done → s.send = false := by
    intro done
    have last : (coming (past ++ [i])).getLast? = some .done := by
      rw [coming_append,coming_i,List.append_nil]
      rw [closing.state] at done
      cases last : (coming past).getLast? with
      | none => simp [last] at done
      | some state => simpa [last] using done
    have unsent := next.tidy.paired _ (past_mem _ _) last (by
      rw [List.getLast?_concat]
      rintro ⟨⟩
      cases coming_i)
    cases send : s.send with
    | false => rfl
    | true => exact absurd unsent (next.send.mp send)
  by_cases more : rest ++ coda = []
  · obtain ⟨none,nothing⟩ := List.append_eq_nil_iff.mp more
    subst none nothing
    obtain ⟨state,send⟩ := next.ended
    rcases closing.coda with ⟨-,mine,rests⟩ | ⟨wrong,-⟩
    · exact ⟨_,held',.done state send mine (next.settled rfl) next.forward
        (List.forall_mem_cons.mpr ⟨rfl,rests⟩)⟩
    · cases wrong
  · exact ⟨_,held',.closing { call with rest := rest ++ coda } s.stack rfl _ _ _ _ next rfl isOver rfl⟩

theorem proceed (closing : Closing s call s.stack past rest coda base)
    (held : Held s.gen s.log s.stack call.request) (reads : Reads) :
    Invariant (s.proceed reads call (rest ++ coda)) := by
  induction rest generalizing s past with
  | nil => exact closing.isOver held reads
  | cons i rest ih =>
    have plain := closing.tidy.plain i (by simp)
    cases i with
    | fire name => exact closing.fired held false name (by
        cases closes : name.closing <;> simp [due,closes]) rfl nofun
    | fireUpload name =>
      by_cases listeners : call.uploadListeners = true
      · rw [List.cons_append,Object.proceed,if_pos listeners]
        exact closing.fired held true name rfl rfl nofun
      · rw [List.cons_append,Object.proceed,if_neg listeners]
        exact ih (closing.advance rfl rfl rfl rfl (by simp) id) held
    | check =>
      rw [List.cons_append,Object.proceed,if_neg (not_not_intro closing.live)]
      exact ih (closing.advance rfl rfl rfl rfl (by simp) id) held
    | ready state =>
      refine ih (closing.advance rfl ?_ ?_ rfl ?_ ?_) ?_
      · simp [Object.setReady,Xhr.endings,Entry.closing,List.filterMap_cons,due]
      · simp [Object.setReady,Xhr.states,Entry.readyState,coming]
      · simp [Object.setReady]
      · simp [Object.setReady]
      · exact held.record (e := .changed call.live call.request state) rfl
          (by rintro g ⟨⟩; exact closing.live) (by rintro r ⟨⟩; rfl) closing.bound
    | unsend => exact ih (closing.advance rfl rfl rfl rfl (by simp) id) held
    | _ => cases plain

end Closing

theorem Fresh.once {log : List Entry} {r : Nat} (fresh : Fresh log r) : Once (Xhr.endings log r) :=
  .inl fresh.endings

theorem Fresh.forward {log : List Entry} {r : Nat} (fresh : Fresh log r) : Forward (Xhr.states log r) := by
  rcases fresh.states with none | opened
  · rw [none]
    exact .nil
  · rw [opened]
    exact List.pairwise_singleton _ _

theorem Fresh.of_unknown {log : List Entry} {r : Nat}
    (unknown : ∀ e ∈ log,∀ q ∈ e.request,q ≠ r) : Fresh log r :=
  ⟨endings_unknown unknown,.inl (states_unknown unknown)⟩

namespace Phase

variable {s : Object} {cur : Nat}

theorem facts (phase : Phase s cur) : Once (endings s.log cur) ∧ Forward (states s.log cur) := by
  cases phase with
  | unsent _ _ _ _ once forward _ => exact ⟨once,forward⟩
  | opened _ _ _ _ fresh _ => exact ⟨fresh.once,fresh.forward⟩
  | sent _ _ _ fresh _ _ => exact ⟨fresh.once,fresh.forward⟩
  | done _ _ _ settled forward _ => exact ⟨.inr (.inr settled),forward⟩
  | sending f stack _ _ _ _ fresh _ _ _ _ => exact ⟨fresh.once,fresh.forward⟩
  | closing f stack _ past rest coda base closing _ _ cur_eq =>
    subst cur_eq
    exact ⟨closing.once,closing.forward⟩

theorem opened_over (phase : Phase s cur) : Accounted (s.gen + 1) s.stack (.opened s.gen :: s.log) cur := by
  have current : cur = s.gen → Accounted (s.gen + 1) s.stack (.opened s.gen :: s.log) cur := by
    rintro rfl _
    exact .inr (.inl List.mem_cons_self)
  cases phase with
  | closing f stack top past rest coda base closing rest_eq isOver' cur_eq =>
    subst cur_eq
    rcases closing.coda with ⟨-,mine,-⟩ | ⟨rfl,-,checks,-⟩
    · exact current mine
    · intro _
      have heedless : f.rest.head? ≠ some .check := by
        rw [rest_eq]
        intro first
        have member := List.mem_of_head? first
        simp only [List.mem_append] at member checks
        simp_all
      have member : f ∈ s.stack := top ▸ List.mem_cons_self
      have older : f.live < s.gen + 1 := Nat.lt_succ_of_le (Nat.le_of_eq closing.live)
      exact (closing.dead rest_eq older member heedless).imp_right .inr
  | unsent _ _ cur_eq => exact current cur_eq
  | opened _ _ cur_eq => exact current cur_eq
  | sent _ _ cur_eq => exact current cur_eq
  | done _ _ cur_eq => exact current cur_eq
  | sending _ _ _ _ _ cur_eq => exact current cur_eq

theorem inFlight (phase : Phase s cur) (flying : s.inFlight) : cur = s.gen ∧ endings s.log cur = [] ∧
      ∀ state ∈ states s.log cur,state.code < ReadyState.done.code := by
  have early (fresh : Fresh s.log cur) :
      ∀ state ∈ states s.log cur,state.code < ReadyState.done.code := by
    rcases fresh.states with none | opened
    · simp [none]
    · simp [opened,ReadyState.code]
  cases phase with
  | closing f stack top past rest coda base closing rest_eq isOver' cur_eq =>
    subst cur_eq
    have undone : s.state ≠ .done := by
      intro done
      simp [Object.inFlight,done] at flying
    refine ⟨?_,closing.endings_of_undone undone,closing.states_of_undone undone⟩
    rcases closing.coda with ⟨-,mine,-⟩ | ⟨-,unsent,-⟩
    · exact mine
    · exact absurd (closing.done_of_past unsent) undone
  | sent _ _ cur_eq fresh => exact ⟨cur_eq,fresh.endings,early fresh⟩
  | sending _ _ _ _ _ cur_eq fresh => exact ⟨cur_eq,fresh.endings,early fresh⟩
  | unsent state => simp [Object.inFlight,state] at flying
  | opened state send => simp [Object.inFlight,state,send] at flying
  | done state => simp [Object.inFlight,state] at flying

theorem send_of_over (phase : Phase s cur) (isOver : ¬s.inFlight) : s.send = false := by
  cases phase with
  | unsent _ send => exact send
  | opened _ send => exact send
  | done _ send => exact send
  | sent state send => exact absurd (.inl ⟨state,send⟩) isOver
  | sending _ _ _ state send => exact absurd (.inl ⟨state,send⟩) isOver
  | closing f stack top past rest coda base closing rest_eq sent =>
    refine sent ?_
    by_contra undone
    exact isOver (closing.inFlight_of_undone undone)

theorem aborted_over (phase : Phase s cur) (isOver : ¬s.inFlight) (undisturbed : Undisturbed s .abort) :
    Accounted (s.gen + 1) s.stack (.aborted s.gen :: s.log) cur := by
  have unsent (notSent : .sent cur ∉ s.log) :
      Accounted (s.gen + 1) s.stack (.aborted s.gen :: s.log) cur := by
    intro sent
    simp [notSent] at sent
  cases phase with
  | closing f stack top past rest coda base closing rest_eq isOver' cur_eq =>
    subst cur_eq
    intro _
    have done : s.state = .done := by
      by_contra undone
      exact isOver (closing.inFlight_of_undone undone)
    have heedless := undisturbed done f (by rw [top]; rfl) closing.live
    have member : f ∈ s.stack := top ▸ List.mem_cons_self
    have older : f.live < s.gen + 1 := Nat.lt_succ_of_le (Nat.le_of_eq closing.live)
    exact (closing.dead rest_eq older member heedless).imp_right .inr
  | unsent _ _ _ notSent => exact unsent notSent
  | opened _ _ _ notSent => exact unsent notSent
  | done _ _ _ settled => exact fun _ => .inl settled
  | sent state send => exact absurd (.inl ⟨state,send⟩) isOver
  | sending _ _ _ state send => exact absurd (.inl ⟨state,send⟩) isOver

end Phase

theorem Held.newer {gen cur : Nat} {log : List Entry} {stack : List Frame}
    (held : Held gen log stack cur) (f : Frame) (member : f ∈ stack) (live : f.live = gen + 1) :
    f.rest = [] := by
  have bound := held.frames f member
  omega

namespace Object

variable {s : Object}

theorem open_keeps (invariant : Invariant s) : Invariant s.open_ := by
  obtain ⟨cur,held,phase⟩ := invariant
  have entered := held.enter (e := .opened s.gen) rfl rfl rfl
  have all := entered.all phase.facts.1 phase.facts.2 phase.opened_over
  have turned := entered.turn all (s.gen + 1)
  have unknown : ∀ e ∈ Entry.opened s.gen :: s.log,∀ q ∈ e.request,q ≠ s.gen + 1 := by
    refine List.forall_mem_cons.mpr ⟨nofun,?_⟩
    intro e member q mine
    exact Nat.ne_of_lt (Nat.lt_succ_of_le (held.known e member q mine))
  have notSent : Entry.sent (s.gen + 1) ∉ Entry.opened s.gen :: s.log :=
    fun member => unknown _ member _ rfl rfl
  have fresh := Fresh.of_unknown unknown
  by_cases state : s.state = .opened
  · rw [open_,if_pos state]
    exact ⟨_,turned,.opened state rfl rfl notSent fresh held.newer⟩
  · rw [open_,if_neg state]
    have recorded := (turned.record (e := .changed (s.gen + 1) (s.gen + 1) .opened) rfl
      (by rintro g ⟨⟩; rfl) (by rintro r ⟨⟩; rfl) le_rfl).record
      (e := .fired (s.gen + 1) (s.gen + 1) false .readystatechange) rfl
      (by rintro g ⟨⟩; rfl) (by rintro r ⟨⟩; rfl) le_rfl
    have pushed := recorded.push (f := { live := s.gen + 1,request := s.gen + 1,rest := [] }) le_rfl
    refine ⟨s.gen + 1,pushed,.opened rfl rfl rfl ?_ ⟨?_,.inr ?_⟩ ?_⟩
    · simpa [run,proceed,dispatch,setReady] using notSent
    · have none := fresh.endings
      simpa [run,proceed,dispatch,setReady,endings,Entry.closing,Name.closing,Name.terminal,
        List.filterMap_cons] using none
    · have none := states_unknown unknown
      simpa [run,proceed,dispatch,setReady,states,Entry.readyState,List.filterMap_cons] using none
    · exact List.forall_mem_cons.mpr ⟨fun _ => rfl,held.newer⟩

theorem send_keeps (invariant : Invariant s) (body : Bool) : Invariant (s.send_ body) := by
  obtain ⟨cur,held,phase⟩ := invariant
  by_cases throws : s.state ≠ .opened ∨ s.send = true
  · rw [send_,if_pos throws]
    exact ⟨cur,held,phase⟩
  rw [send_,if_neg throws]
  obtain ⟨state,send⟩ : s.state = .opened ∧ s.send = false := by simpa using throws
  cases phase with
  | opened _ _ cur_eq notSent fresh rests =>
    subst cur_eq
    have recorded := (held.record (e := .sent s.gen) rfl nofun (by rintro r ⟨⟩; rfl) le_rfl).record
      (e := .fired s.gen s.gen false .loadstart) rfl
      (by rintro g ⟨⟩; rfl) (by rintro r ⟨⟩; rfl) le_rfl
    have pushed := recorded.push
      (f := { live := s.gen,request := s.gen,body,rest := [.offer,.fetch] }) le_rfl
    refine ⟨s.gen,pushed,.sending _ s.stack rfl state rfl rfl ⟨?_,?_⟩ rfl rfl (.inl rfl) rests⟩
    · have none := fresh.endings
      simpa [run,proceed,sending,dispatch,endings,Entry.closing,Name.closing,Name.terminal,
        List.filterMap_cons] using none
    · have first := fresh.states
      simpa [run,proceed,sending,dispatch,states,Entry.readyState,List.filterMap_cons] using first
  | unsent other => simp_all
  | sent _ other => simp_all
  | done other => simp_all
  | sending _ _ _ _ other => simp_all
  | closing f stack top past rest coda base closing =>
    have done := closing.done_of_unsent send
    simp_all

theorem run_reset_done (state : s.state = .done) (call : Call) :
    s.run call [.reset] = { s with state := .unsent,log := .reset call.live :: s.log } := by
  simp [run,proceed,state]

theorem run_reset (state : s.state ≠ .done) (call : Call) : s.run call [.reset] = s := by
  simp [run,proceed,state]

theorem abort_keeps (invariant : Invariant s) (undisturbed : Undisturbed s .abort) : Invariant s.abort := by
  obtain ⟨cur,held,phase⟩ := invariant
  have entered := held.enter (e := .aborted s.gen) rfl rfl rfl
  have unknown : ∀ e ∈ Entry.aborted s.gen :: s.log,∀ q ∈ e.request,q ≠ s.gen + 1 := by
    refine List.forall_mem_cons.mpr ⟨nofun,?_⟩
    intro e member q mine
    exact Nat.ne_of_lt (Nat.lt_succ_of_le (held.known e member q mine))
  have notSent : Entry.sent (s.gen + 1) ∉ Entry.aborted s.gen :: s.log :=
    fun member => unknown _ member _ rfl rfl
  by_cases flying : s.inFlight
  · obtain ⟨rfl,none,early⟩ := phase.inFlight flying
    rw [abort,if_pos flying]
    refine @Closing.proceed _ _ [.ready .done,.unsend]
      [.fire .readystatechange,.fire .abort,.fire .loadend] _ (states s.log s.gen) ?_ ?_ {}
    · constructor
      · exact aborting_tidy
      · rfl
      · exact Nat.le_succ s.gen
      · exact none
      · simp [setReady,states,Entry.readyState,List.filterMap_cons,coming]
      · exact phase.facts.2
      · simpa [coming] using early
      · rfl
      · simp
      · exact .inr ⟨rfl,by simp,by decide,by simpa [setReady] using notSent⟩
      · exact held.newer
    · exact entered.record (e := .changed (s.gen + 1) s.gen .done) rfl (by rintro g ⟨⟩; rfl)
        (by rintro r ⟨⟩; rfl) (Nat.le_succ s.gen)
  · have all := entered.all phase.facts.1 phase.facts.2 (phase.aborted_over flying undisturbed)
    have turned := entered.turn all (s.gen + 1)
    have fresh := Fresh.of_unknown unknown
    have send := phase.send_of_over flying
    rw [abort,if_neg flying]
    by_cases done : s.state = .done
    · have recorded := turned.record (e := .reset (s.gen + 1)) rfl (by rintro g ⟨⟩; rfl) nofun le_rfl
      rw [List.nil_append,run_reset_done]
      · exact ⟨_,recorded,.unsent rfl send rfl (by simpa using notSent) fresh.once fresh.forward held.newer⟩
      · exact done
    · rw [List.nil_append,run_reset]
      swap
      · exact done
      cases state : s.state with
      | unsent => exact ⟨_,turned,.unsent state send rfl notSent fresh.once fresh.forward held.newer⟩
      | opened => exact ⟨_,turned,.opened state send rfl notSent fresh held.newer⟩
      | headers => exact absurd (.inr (.inl state)) flying
      | loading => exact absurd (.inr (.inr state)) flying
      | done => exact absurd state done

theorem return_keeps {f : Frame} {rest : List Frame} {reads : Reads} (invariant : Invariant s)
    (top : s.stack = f :: rest) (undisturbed : Undisturbed s (.return_ reads)) :
    Invariant (proceed reads f.toCall f.rest { s with stack := rest }) := by
  obtain ⟨cur,held,phase⟩ := invariant
  have returns : f.live = s.gen ∨ quiet reads f.toCall f.rest = true :=
    undisturbed f (by rw [top]; rfl)
  rw [top] at held
  have popped := held.pop (returns.imp_right fun nothing => ⟨reads,nothing⟩)
  have calm (rests : ∀ f ∈ s.stack,f.live = s.gen → f.rest = [])
      (undone : s.state = .done → f.rest = []) :
      proceed reads f.toCall f.rest { s with stack := rest } = { s with stack := rest } := by
    by_cases live : f.live = s.gen
    · rw [rests f (top ▸ List.mem_cons_self) live]
      rfl
    · refine proceed_quiet live (returns.resolve_left live) ?_
      intro done
      simp [undone done]
  have below {p : Frame → Prop} (all : ∀ f ∈ s.stack,p f) : ∀ f ∈ rest,p f := by
    rw [top] at all
    exact (List.forall_mem_cons.mp all).2
  cases phase with
  | unsent state send cur_eq notSent once forward rests =>
    rw [calm rests (by simp [state])]
    exact ⟨cur,popped,.unsent state send cur_eq notSent once forward (below rests)⟩
  | opened state send cur_eq notSent fresh rests =>
    rw [calm rests (by simp [state])]
    exact ⟨cur,popped,.opened state send cur_eq notSent fresh (below rests)⟩
  | sent state send cur_eq fresh awaited rests =>
    rw [calm rests (by simp [state])]
    exact ⟨cur,popped,.sent state send cur_eq fresh awaited (below rests)⟩
  | done state send cur_eq settled forward rests =>
    rw [calm (fun f member _ => rests f member) fun _ => rests f (top ▸ List.mem_cons_self)]
    exact ⟨cur,popped,.done state send cur_eq settled forward (below rests)⟩
  | sending f' stack top' state send cur_eq fresh live request rest' rests =>
    obtain ⟨rfl,rfl⟩ : f = f' ∧ rest = stack := by simpa [top] using top'
    subst cur_eq
    have starts : ∀ call : Call,call.live = s.gen →
        Invariant (proceed reads call [.fetch] { s with stack := rest }) := by
      intro call live
      have goes : ¬(s.state ≠ .opened ∨ s.send = false ∨ call.live ≠ s.gen) := by
        simp [state,send,live]
      rw [proceed,if_neg goes]
      refine ⟨s.gen,popped,.sent state send rfl fresh ⟨_,List.mem_append_right _ List.mem_cons_self,live⟩ rests⟩
    rcases rest' with both | last
    · rw [both,proceed]
      split
      · have recorded := (popped.record (e := .fired f.live f.request true .loadstart) rfl
          (by rintro g ⟨⟩; exact live) (by rintro r ⟨⟩; exact request) le_rfl).push
          (f := { f with uploadListeners := true,rest := [.fetch] }) (Nat.le_of_eq live)
        refine ⟨s.gen,recorded,.sending _ rest rfl state send rfl ⟨?_,?_⟩ live request (.inr rfl) rests⟩
        · exact fresh.endings
        · exact fresh.states
      · exact starts _ live
    · rw [last]
      exact starts _ live
  | closing f' stack top' past rest' coda base closing rest_eq isOver' cur_eq =>
    obtain ⟨rfl,rfl⟩ : f = f' ∧ rest = stack := by simpa [top] using top'
    subst cur_eq
    rw [rest_eq]
    exact Closing.proceed (s := { s with stack := rest }) { closing with } popped reads

theorem run_closes {call : Call} {body : List Instr} (held : Held s.gen s.log s.stack s.gen)
    (idle : s.stack = []) (state : s.state = .opened) (send : s.send = true)
    (fresh : Fresh s.log s.gen) (live : call.live = s.gen) (request : call.request = s.gen)
    (tidy : Tidy body) : Invariant (s.run call body) := by
  have closing : Closing s call s.stack [] body [] (states s.log s.gen) := by
    constructor
    · exact tidy
    · exact live
    · exact Nat.le_of_eq request
    · rw [request]
      exact fresh.endings
    · rw [request]
      rfl
    · exact fresh.forward
    · intro earlier member later member'
      have early : earlier.code ≤ 1 := by
        rcases fresh.states with none | opened
        · simp [none] at member
        · simp [List.mem_singleton.mp (opened ▸ member),ReadyState.code]
      exact Nat.lt_of_le_of_lt early (tidy.later later member')
    · exact state
    · simp [send]
    · exact .inl ⟨rfl,request,by simp [idle]⟩
    · simp [idle]
  have runs := closing.proceed (request ▸ held) {}
  rwa [List.append_nil] at runs

theorem waiting (invariant : Invariant s) (idle : s.stack = []) (send : s.send = true) :
    Held s.gen s.log s.stack s.gen ∧ s.state = .opened ∧ Fresh s.log s.gen ∧ ∃ p ∈ s.pending,p.gen = s.gen := by
  obtain ⟨cur,held,phase⟩ := invariant
  cases phase with
  | sent state _ cur_eq fresh awaited =>
    subst cur_eq
    exact ⟨held,state,fresh,awaited⟩
  | unsent _ unsent => simp [send] at unsent
  | opened _ unsent => simp [send] at unsent
  | done _ unsent => simp [send] at unsent
  | sending f stack top => simp [idle] at top
  | closing f stack top => simp [idle] at top

theorem still {pending : List Pending} {timer : Option Timer} (invariant : Invariant s)
    (idle : s.stack = []) (kept : s.send = true → (∃ p ∈ s.pending,p.gen = s.gen) →
      ∃ p ∈ pending,p.gen = s.gen) : Invariant { s with pending,timer } := by
  obtain ⟨cur,held,phase⟩ := invariant
  cases phase with
  | unsent state send cur_eq notSent once forward rests =>
    exact ⟨cur,held,.unsent state send cur_eq notSent once forward rests⟩
  | opened state send cur_eq notSent fresh rests =>
    exact ⟨cur,held,.opened state send cur_eq notSent fresh rests⟩
  | sent state send cur_eq fresh awaited rests =>
    subst cur_eq
    exact ⟨s.gen,held,.sent state send rfl fresh (kept send awaited) rests⟩
  | done state send cur_eq settled forward rests =>
    exact ⟨cur,held,.done state send cur_eq settled forward rests⟩
  | sending f stack top => simp [idle] at top
  | closing f stack top => simp [idle] at top

theorem complete_keeps {i : Nat} {p : Pending} (invariant : Invariant s) (idle : s.stack = [])
    (found : s.pending[i]? = some p) (success : Bool) :
    Invariant ({ s with pending := s.pending.eraseIdx i }.complete p success) := by
  by_cases stale : p.gen ≠ s.gen ∨ s.send = false
  · rw [complete,if_pos stale]
    refine still invariant idle ?_
    rintro send ⟨q,member,mine⟩
    refine ⟨q,?_,mine⟩
    obtain ⟨j,at_j⟩ := List.mem_iff_getElem?.mp member
    have apart : j ≠ i := by
      rintro rfl
      obtain rfl : p = q := Option.some.inj (found.symm.trans at_j)
      simp [mine,send] at stale
    exact List.mem_eraseIdx_iff_getElem?.mpr ⟨j,apart,at_j⟩
  · obtain ⟨mine,send⟩ : p.gen = s.gen ∧ s.send = true := by simpa using stale
    obtain ⟨held,state,fresh,-⟩ := waiting invariant idle send
    rw [complete,if_neg stale]
    refine run_closes held idle state send fresh mine mine ?_
    cases success
    · exact requestError_tidy (.inl rfl)
    · exact completing_tidy

theorem timeout_keeps {t : Timer} (invariant : Invariant s) (idle : s.stack = []) :
    Invariant ({ s with timer := none }.onTimeout t) := by
  by_cases stale : t.gen ≠ s.gen ∨ s.send = false
  · rw [onTimeout,if_pos stale]
    exact still invariant idle fun _ awaited => awaited
  · obtain ⟨mine,send⟩ : t.gen = s.gen ∧ s.send = true := by simpa using stale
    obtain ⟨held,state,fresh,-⟩ := waiting invariant idle send
    rw [onTimeout,if_neg stale]
    exact run_closes held idle state send fresh mine mine (requestError_tidy (.inr rfl))

theorem progress_keeps {p : Pending} (invariant : Invariant s) (idle : s.stack = [])
    (upload : Bool) : Invariant (s.onProgress p upload) := by
  by_cases stale : p.gen ≠ s.gen ∨ s.send = false
  · rw [onProgress,if_pos stale]
    exact invariant
  obtain ⟨mine,send⟩ : p.gen = s.gen ∧ s.send = true := by simpa using stale
  obtain ⟨held,state,fresh,awaited⟩ := waiting invariant idle send
  have fires (call : Call) (live : call.live = s.gen) (request : call.request = s.gen) (up : Bool) :
      Invariant (s.dispatch call up .progress []) := by
    have recorded := (held.record (e := .fired call.live call.request up .progress) rfl
      (by rintro g ⟨⟩; exact live) (by rintro r ⟨⟩; exact request) le_rfl).push
      (f := { call with rest := [] }) (Nat.le_of_eq live)
    refine ⟨s.gen,recorded,.sent state send rfl ⟨?_,?_⟩ awaited ?_⟩
    · have none := fresh.endings
      cases up <;>
        simpa [dispatch,endings,Entry.closing,Name.closing,Name.terminal,List.filterMap_cons] using none
    · exact fresh.states
    · simp [dispatch,idle]
  rw [onProgress,if_neg stale]
  cases upload with
  | false => exact fires _ mine mine false
  | true =>
    by_cases listeners : p.uploadListeners = true
    · have runs := fires { live := p.gen,request := p.gen,uploadListeners := p.uploadListeners } mine mine true
      simpa [run,proceed,listeners] using runs
    · simpa [run,proceed,listeners] using invariant

theorem step_keeps {action : Action} {next : Object} (invariant : Invariant s)
    (undisturbed : Undisturbed s action) (taken : s.step action = some next) : Invariant next := by
  cases action with
  | open_ =>
    cases taken
    exact open_keeps invariant
  | send body =>
    cases taken
    exact send_keeps invariant body
  | abort =>
    cases taken
    exact abort_keeps invariant undisturbed
  | return_ reads =>
    cases stack : s.stack with
    | nil => simp [step,stack] at taken
    | cons f rest =>
      simp only [step,stack,Option.some.injEq] at taken
      exact taken ▸ return_keeps invariant stack undisturbed
  | complete i success =>
    cases stack : s.stack with
    | cons f rest => simp [step,stack] at taken
    | nil =>
      cases found : s.pending[i]? with
      | none => simp [step,stack,found] at taken
      | some p =>
        simp only [step,stack,found,Option.some.injEq] at taken
        exact taken ▸ stack ▸ complete_keeps invariant stack found success
  | timeout =>
    cases stack : s.stack with
    | cons f rest => simp [step,stack] at taken
    | nil =>
      cases timer : s.timer with
      | none => simp [step,stack,timer] at taken
      | some t =>
        simp only [step,stack,timer,Option.some.injEq] at taken
        exact taken ▸ stack ▸ timeout_keeps invariant stack
  | progress i upload =>
    cases stack : s.stack with
    | cons f rest => simp [step,stack] at taken
    | nil =>
      cases found : s.pending[i]? with
      | none => simp [step,stack,found] at taken
      | some p =>
        by_cases unlisted : p.reqId = none
        · simp [step,stack,found,unlisted] at taken
        · simp only [step,stack,found,if_neg unlisted,Option.some.injEq] at taken
          exact taken ▸ progress_keeps invariant stack upload

theorem start_invariant : Invariant {} :=
  ⟨0,⟨nofun,nofun,.nil,nofun,fun _ _ => .inl rfl,fun _ _ => .nil,fun _ _ => nofun⟩,
    .unsent rfl rfl rfl nofun (.inl rfl) .nil nofun⟩

end Object

theorem Invariant.orderly {s : Object} (invariant : Invariant s) : Orderly s := by
  obtain ⟨cur,held,phase⟩ := invariant
  constructor
  · intro r
    by_cases same : r = cur
    · exact same ▸ phase.facts.1
    · exact held.once r same
  · intro idle r sent
    have finished : Settled (endings s.log r) ∨ .opened r ∈ s.log ∨ r = cur := by
      by_cases same : r = cur
      · exact .inr (.inr same)
      · rcases held.accounted r same sent with settled | opened | ⟨f,member,-⟩
        · exact .inl settled
        · exact .inr (.inl opened)
        · simp [idle] at member
    rcases finished with settled | opened | rfl
    · exact .inl settled
    · exact .inr (.inl opened)
    cases phase with
    | unsent _ _ _ notSent => exact absurd sent notSent
    | opened _ _ _ notSent => exact absurd sent notSent
    | sent _ send cur_eq _ awaited => exact .inr (.inr ⟨cur_eq,send,awaited⟩)
    | done _ _ _ settled => exact .inl settled
    | sending f stack top => simp [idle] at top
    | closing f stack top => simp [idle] at top
  · intro r
    by_cases same : r = cur
    · exact same ▸ phase.facts.2
    · exact held.forward r same
  · exact held.silent

/-- Along every run in which no handler disturbs the body that waits for it, each request gets
its events in order, and none after its end. -/
theorem Object.orderly_of_undisturbed (actions : List Action)
    (undisturbed : Runs.Guarded step Undisturbed {} actions) : Runs.Always step Orderly {} actions :=
  Runs.always_of_guarded step (fun _ _ _ invariant allowed taken => step_keeps invariant allowed taken)
    (fun _ invariant => invariant.orderly) start_invariant undisturbed

instance (s : Object) : DecidablePred (Undisturbed s) := by
  intro action
  cases action <;> unfold Undisturbed <;> infer_instance

instance (log : List Entry) : Decidable (Silent log) := by
  unfold Silent
  infer_instance

namespace Sample

/-- A request with a body; the handler of the upload's `progress` aborts it. -/
def abortedByUpload : List Action :=
  [.open_,.return_ {},.send true,.return_ { uploadListeners := true },.return_ {},.complete 0 true,
    .abort,.return_ {},.return_ {},.return_ {},.return_ {}]

theorem upload_goes_on : ¬∀ actions,Runs.Always Object.step Orderly {} actions := by
  intro all
  have loud : ∀ s ∈ Runs.exec Object.step {} abortedByUpload,¬Silent s.log := by decide
  cases ran : Runs.exec Object.step {} abortedByUpload with
  | none => exact absurd ran (by decide)
  | some s => exact loud s ran (Runs.always_final _ (all _) ran).silent

/-- A request that times out, is opened again from `loadend`, and then loads. -/
def opensAgain : List Action :=
  [.open_,.return_ {},.send false,.return_ { timeout := true },.timeout,.return_ {},.return_ {},
    .open_,.return_ {},.send false,.return_ {},.return_ {},.complete 0 true,.return_ {},.return_ {},
    .return_ {},.return_ {},.return_ {},.return_ {}]

theorem opensAgain_orderly : (Runs.exec Object.step {} opensAgain).isSome = true ∧
    Runs.Always Object.step Orderly {} opensAgain :=
  ⟨by decide,Object.orderly_of_undisturbed opensAgain (by decide)⟩

end Sample

end Sharko.Script.Xhr
