import Sharko.Script.IndexedDb.Stack

/-! The requests of a transaction are performed, and their events fired, in the order they were
placed: what the log tells of them, followed by what the stack, the timers and the queue hold,
is what was placed. -/

namespace Sharko.Script.IndexedDb

inductive Stage where
  | placed
  | performed
  | settled
  deriving DecidableEq

def Event.item (stage : Stage) (t : Nat) : Event → Option Item
  | .placed u item _ => if stage = .placed ∧ u = t then some item else none
  | .performed u item _ => if stage = .performed ∧ u = t then some item else none
  | .settled u item _ => if stage = .settled ∧ u = t then some item else none
  | _ => none

def itemsOf (log : List Event) (stage : Stage) (t : Nat) : List Item := log.filterMap (Event.item stage t)

def asking (items : List Item) : List Item := items.filter fun item => item.req.isSome

def Frame.working (t : Nat) : Frame → Option Item
  | .running u item _ => if u = t then some item else none
  | _ => none

def Task.settles (t : Nat) : Task → Option Item
  | .settle u item => if u = t then some item else none
  | _ => none

theorem asking_append (first second : List Item) : asking (first ++ second) = asking first ++ asking second :=
  List.filter_append ..

theorem itemsOf_append (log more : List Event) (stage : Stage) (t : Nat) :
    itemsOf (log ++ more) stage t = itemsOf log stage t ++ itemsOf more stage t := List.filterMap_append

namespace Ledger

variable {Λ K : Ledger} {t u : Nat}

def working (Λ : Ledger) (t : Nat) : List Item := Λ.frames.filterMap (Frame.working t)

def due (Λ : Ledger) (t : Nat) : List Item := Λ.tasks.filterMap (Task.settles t)

structure Served (Λ : Ledger) : Prop where
  fresh : ∀ t,Λ.nextTx ≤ t → itemsOf Λ.log .placed t = []
  numbered : ∀ t,∀ item ∈ itemsOf Λ.log .placed t,item.id < Λ.nextItem
  increasing : ∀ t,(itemsOf Λ.log .placed t).Pairwise fun a b => a.id < b.id
  alone : Λ.frames.Pairwise fun a _ => a.item = none
  performed : ∀ t,itemsOf Λ.log .performed t ++ Λ.working t <+: itemsOf Λ.log .placed t
  settled : ∀ t,asking (itemsOf Λ.log .placed t) =
    itemsOf Λ.log .settled t ++ asking (Λ.working t) ++ Λ.due t ++ asking (Λ.tx t).queue

def Queued (Λ : Ledger) (t : Nat) : Prop :=
  itemsOf Λ.log .placed t = itemsOf Λ.log .performed t ++ Λ.working t ++ (Λ.tx t).queue

structure Ordered (Λ : Ledger) : Prop extends Served Λ where
  queued : ∀ t,¬Λ.Over t → Λ.Queued t

/-! ### Moves that no request notices -/

/-- The log tells nothing of requests, and nothing is queued, performed or settled. -/
structure Still (Λ K : Ledger) : Prop where
  nextTx : K.nextTx = Λ.nextTx
  nextItem : K.nextItem = Λ.nextItem
  log : ∀ stage u,itemsOf K.log stage u = itemsOf Λ.log stage u
  working : ∀ u,K.working u = Λ.working u
  alone : (Λ.frames.Pairwise fun a _ => a.item = none) → K.frames.Pairwise fun a _ => a.item = none
  due : ∀ u,K.due u = Λ.due u
  queue : ∀ u,(K.tx u).queue = (Λ.tx u).queue
  isOver : ∀ u,Λ.Over u → K.Over u

theorem Ordered.still (ordered : Λ.Ordered) (still : Still Λ K) : K.Ordered where
  fresh t late := (still.log .placed t).trans (ordered.fresh t (still.nextTx ▸ late))
  numbered t item mem := by
    rw [still.log] at mem
    exact still.nextItem ▸ ordered.numbered t item mem
  increasing t := by
    rw [still.log]
    exact ordered.increasing t
  alone := still.alone ordered.alone
  performed t := by
    rw [still.log,still.log,still.working]
    exact ordered.performed t
  settled t := by
    rw [still.log,still.log,still.working,still.due,still.queue]
    exact ordered.settled t
  queued t unfinished := by
    unfold Queued
    rw [still.log,still.log,still.working,still.queue]
    exact ordered.queued t fun isOver => unfinished (still.isOver t isOver)

theorem due_append {more : List Task} (silent : ∀ task ∈ more,∀ u,task.settles u = none)
    (tasks : K.tasks = Λ.tasks ++ more) (u : Nat) : K.due u = Λ.due u := by
  have none_new : more.filterMap (Task.settles u) = [] := by
    rw [List.filterMap_eq_nil_iff]
    exact fun task mem => silent task mem u
  rw [Ledger.due,tasks,List.filterMap_append,none_new,List.append_nil]
  rfl

theorem Quiet.still (quiet : Quiet Λ K) (log : ∀ stage u,itemsOf K.log stage u = itemsOf Λ.log stage u) :
    Still Λ K where
  nextTx := quiet.nextTx
  nextItem := quiet.nextItem
  log := log
  working u := by rw [Ledger.working,quiet.frames]; rfl
  alone := by rw [quiet.frames]; exact id
  due u := by
    obtain ⟨more,tasks,kinds⟩ := quiet.tasks
    refine due_append ?_ tasks u
    intro task mem v
    rcases kinds task mem with ⟨w,_,rfl⟩ | ⟨k,rfl⟩
    · rfl
    · rfl
  queue := quiet.queue
  isOver u := (quiet.isOver u).mpr

theorem over_other {account : Account} (other : u ≠ t) (tx : K.tx = Function.update Λ.tx t account)
    (frames : K.frames = Λ.frames) (isOver : Λ.Over u) : K.Over u :=
  (over_congr (by rw [tx,Function.update_of_ne other]) fun _ => by rw [frames]).mpr isOver

theorem Still.update {account : Account} (tx : K.tx = Function.update Λ.tx t account)
    (queue : account.queue = (Λ.tx t).queue) (nextTx : K.nextTx = Λ.nextTx)
    (nextItem : K.nextItem = Λ.nextItem) (log : K.log = Λ.log) (working : ∀ u,K.working u = Λ.working u)
    (alone : (Λ.frames.Pairwise fun a _ => a.item = none) → K.frames.Pairwise fun a _ => a.item = none)
    (due : ∀ u,K.due u = Λ.due u) (isOver : ∀ u,Λ.Over u → K.Over u) : Still Λ K where
  nextTx := nextTx
  nextItem := nextItem
  log stage u := by rw [log]
  working := working
  alone := alone
  due := due
  queue u := by
    rw [tx]
    by_cases same : u = t
    · subst same
      rw [Function.update_self,queue]
    · rw [Function.update_of_ne same]
  isOver := isOver

theorem Still.account {account : Account} (tx : K.tx = Function.update Λ.tx t account)
    (queue : account.queue = (Λ.tx t).queue) (state : account.state = (Λ.tx t).state)
    (nextTx : K.nextTx = Λ.nextTx) (nextItem : K.nextItem = Λ.nextItem) (log : K.log = Λ.log)
    (frames : K.frames = Λ.frames) (due : ∀ u,K.due u = Λ.due u) : Still Λ K :=
  .update tx queue nextTx nextItem log (fun u => by rw [Ledger.working,frames]; rfl) (frames ▸ id) due
    fun u => (over_congr (state_update tx state u) fun _ => by rw [frames]).mpr

theorem due_turn {task : Task} {tasks : List Task} (timer : Λ.tasks = task :: tasks)
    (silent : ∀ u,task.settles u = none) (later : K.tasks = tasks) (u : Nat) : K.due u = Λ.due u := by
  rw [Ledger.due,Ledger.due,timer,List.filterMap_cons_none (silent u),later]

theorem Still.turn {task : Task} {tasks : List Task} (timer : Λ.tasks = task :: tasks)
    (silent : ∀ u,task.settles u = none) : Still Λ { Λ with tasks } where
  nextTx := rfl
  nextItem := rfl
  log _ _ := rfl
  working _ := rfl
  alone := id
  due := due_turn timer silent rfl
  queue _ := rfl
  isOver _ := id

theorem Still.push {frame : Frame} (idle : frame.item = none) (plain : frame.isCloning = false) :
    Still Λ (Λ.push frame) where
  nextTx := rfl
  nextItem := rfl
  log _ _ := rfl
  working u := by
    have silent : frame.working u = none := by
      cases frame with
      | running => cases idle
      | _ => rfl
    rw [Ledger.working,Ledger.push,List.filterMap_cons_none silent]
    rfl
  alone shape := List.pairwise_cons.mpr ⟨fun _ _ => idle,shape⟩
  due _ := rfl
  queue _ := rfl
  isOver _ := (over_push plain).mpr

theorem working_leave {frame : Frame} {rest : List Frame} (frames : Λ.frames = frame :: rest) (u : Nat) :
    Λ.working u = (frame.working u).toList ++ Λ.leave.working u := by
  rw [Ledger.working,Ledger.working,Ledger.leave,frames,List.filterMap_cons]
  cases frame.working u <;> rfl

theorem Still.leave {frame : Frame} {rest : List Frame} (frames : Λ.frames = frame :: rest)
    (idle : frame.item = none) (plain : frame.isCloning = false) : Still Λ Λ.leave where
  nextTx := rfl
  nextItem := rfl
  log _ _ := rfl
  working u := by
    have silent : frame.working u = none := by
      cases frame with
      | running => cases idle
      | _ => rfl
    rw [working_leave frames,silent]
    rfl
  alone shape := shape.tail
  due _ := rfl
  queue _ := rfl
  isOver _ := (over_leave frames plain).mpr

theorem Still.trans {M : Ledger} (first : Still Λ K) (second : Still K M) : Still Λ M where
  nextTx := second.nextTx.trans first.nextTx
  nextItem := second.nextItem.trans first.nextItem
  log stage u := (second.log stage u).trans (first.log stage u)
  working u := (second.working u).trans (first.working u)
  alone shape := second.alone (first.alone shape)
  due u := (second.due u).trans (first.due u)
  queue u := (second.queue u).trans (first.queue u)
  isOver u isOver := second.isOver u (first.isOver u isOver)

theorem schedule_log (t : Nat) : (Λ.schedule t).log = Λ.log := by
  unfold schedule
  split <;> rfl

theorem pump_log (txs : List Nat) :
    (txs.foldl (fun Λ t => if (Λ.tx t).state ≠ .finished then Λ.schedule t else Λ) Λ).log = Λ.log := by
  induction txs generalizing Λ with
  | nil => rfl
  | cons t rest ih =>
    rw [List.foldl_cons,ih]
    split
    · exact schedule_log t
    · rfl

theorem finishUpgrade_log (t : Nat) : (Λ.finishUpgrade t).log = Λ.log := by
  unfold finishUpgrade
  dsimp only
  split
  · rfl
  · split
    · rfl
    · split <;> rfl

theorem finalizeTx_log (t : Nat) : (Λ.finalizeTx t).log = Λ.log := by
  have pumped : ∀ K : Ledger,K.pumpDb.log = K.log := fun K => pump_log K.txs
  unfold finalizeTx
  dsimp only
  rw [show ∀ (K : Ledger) change,(K.connect change).log = K.log from fun _ _ => rfl,pumped,
    finishUpgrade_log]

theorem itemsOf_record (event : Event) (silent : ∀ stage u,event.item stage u = none) (stage : Stage)
    (u : Nat) : itemsOf (Λ.record event).log stage u = itemsOf Λ.log stage u := by
  rw [show (Λ.record event).log = Λ.log ++ [event] from rfl,itemsOf_append,itemsOf,itemsOf,
    List.filterMap_cons_none (silent stage u),List.filterMap_nil,List.append_nil]

theorem connectionTask_log (task : ConnTask) (stage : Stage) (u : Nat) :
    itemsOf (Λ.connectionTask task).log stage u = itemsOf Λ.log stage u ∨
      ∃ req c version,Λ.connectionTask task = Λ.upgrade req c version := by
  unfold connectionTask
  cases task with
  | run =>
    left
    cases Λ.connections.processing with
    | none => rfl
    | some p =>
      have started := itemsOf_record (Λ := Λ) (.started p.request) (fun _ _ => rfl) stage u
      rw [← started]
      dsimp only
      unfold runOpen runDelete
      dsimp only
      split
      · repeat' split
        all_goals rfl
      · split <;> rfl
  | closed =>
    cases Λ.connections.processing with
    | none => exact .inl rfl
    | some p =>
      dsimp only
      cases p.request with
      | openDb req version => exact .inr ⟨req,p.conn,p.version,rfl⟩
      | deleteDb req => exact .inl rfl
  | opened req found =>
    left
    cases found with
    | none => exact itemsOf_record (.answered req) (fun _ _ => rfl) stage u
    | some c => exact itemsOf_record (Λ := Λ.deliver c) (.answered req) (fun _ _ => rfl) stage u
  | deleted req => exact .inl (itemsOf_record (.answered req) (fun _ _ => rfl) stage u)
  | _ =>
    left
    dsimp only
    repeat' split
    all_goals rfl

theorem Still.record (event : Event) (silent : ∀ stage u,event.item stage u = none) :
    Still Λ (Λ.record event) where
  nextTx := rfl
  nextItem := rfl
  log := itemsOf_record event silent
  working _ := rfl
  alone := id
  due _ := rfl
  queue _ := rfl
  isOver _ := id

/-! ### Moves of requests -/

theorem itemsOf_one {event : Event} (log : K.log = Λ.log ++ [event]) (stage : Stage) (u : Nat) :
    itemsOf K.log stage u = itemsOf Λ.log stage u ++ (event.item stage u).toList := by
  rw [log,itemsOf_append]
  refine congrArg (itemsOf Λ.log stage u ++ ·) ?_
  unfold itemsOf
  rw [List.filterMap_cons]
  cases event.item stage u <;> rfl

theorem Ordered.place (ordered : Λ.Ordered) (ready : Λ.Ready t) (op : Op) (req : Option Nat) :
    (Λ.placeItem t op req).Ordered := by
  have log : (Λ.placeItem t op req).log =
      Λ.log ++ [.placed t ⟨Λ.nextItem,req,op⟩ (Λ.tx t).state] := rfl
  have self : ((Λ.placeItem t op req).tx t).queue = (Λ.tx t).queue ++ [⟨Λ.nextItem,req,op⟩] := by
    unfold placeItem
    dsimp only
    rw [set_tx_self]
    rfl
  have other : ∀ u,u ≠ t → (Λ.placeItem t op req).tx u = Λ.tx u := by
    intro u different
    unfold placeItem
    dsimp only
    rw [set_tx_other _ different]
    rfl
  have tx : (Λ.placeItem t op req).tx = Function.update Λ.tx t
      { Λ.tx t with queue := (Λ.tx t).queue ++ [⟨Λ.nextItem,req,op⟩] } := rfl
  have isOver : ∀ u,(Λ.placeItem t op req).Over u ↔ Λ.Over u :=
    fun u => over_congr (state_update tx rfl u) fun _ => Iff.rfl
  have kept : ∀ u,u ≠ t → itemsOf (Λ.placeItem t op req).log .placed u = itemsOf Λ.log .placed u := by
    intro u different
    rw [itemsOf_one log,Event.item,if_neg fun h => different h.2.symm]
    exact List.append_nil _
  have added : itemsOf (Λ.placeItem t op req).log .placed t =
      itemsOf Λ.log .placed t ++ [⟨Λ.nextItem,req,op⟩] := by
    rw [itemsOf_one log,Event.item,if_pos ⟨rfl,rfl⟩]
    rfl
  have performed : ∀ u,itemsOf (Λ.placeItem t op req).log .performed u = itemsOf Λ.log .performed u := by
    intro u
    rw [itemsOf_one log]
    exact List.append_nil _
  have settled : ∀ u,itemsOf (Λ.placeItem t op req).log .settled u = itemsOf Λ.log .settled u := by
    intro u
    rw [itemsOf_one log]
    exact List.append_nil _
  refine { fresh := ?_,numbered := ?_,increasing := ?_,alone := ordered.alone,performed := ?_
           settled := ?_,queued := ?_ }
  · intro u late
    rw [kept u (ready.made.trans_le late).ne']
    exact ordered.fresh u late
  · intro u item mem
    by_cases same : u = t
    · subst same
      rw [added] at mem
      rcases List.mem_append.mp mem with before | now
      · exact Nat.lt_succ_of_lt (ordered.numbered u item before)
      · rw [List.mem_singleton.mp now]
        exact Nat.lt_succ_self _
    · rw [kept u same] at mem
      exact Nat.lt_succ_of_lt (ordered.numbered u item mem)
  · intro u
    by_cases same : u = t
    · subst same
      rw [added]
      refine List.pairwise_append.mpr ⟨ordered.increasing u,List.pairwise_singleton _ _,?_⟩
      intro a before b now
      rw [List.mem_singleton.mp now]
      exact ordered.numbered u a before
    · rw [kept u same]
      exact ordered.increasing u
  · intro u
    rw [performed]
    refine (ordered.performed u).trans ?_
    by_cases same : u = t
    · subst same
      rw [added]
      exact List.prefix_append _ _
    · exact kept u same ▸ List.prefix_rfl
  · intro u
    rw [settled]
    by_cases same : u = t
    · subst same
      rw [added,self,asking_append,asking_append,ordered.settled]
      exact List.append_assoc _ _ _
    · rw [kept u same,other u same]
      exact ordered.settled u
  · intro u unfinished
    rw [isOver] at unfinished
    have before := ordered.queued u unfinished
    unfold Queued at before ⊢
    rw [performed]
    by_cases same : u = t
    · subst same
      rw [added,self,before]
      exact List.append_assoc _ _ _
    · rw [kept u same,other u same]
      exact before

theorem Driven.due_nil (driven : Λ.Driven) (unfinished : ¬Λ.Over t) : Λ.due t = [] := by
  refine List.filterMap_eq_nil_iff.mpr ?_
  intro task mem
  by_contra some_item
  refine unfinished (driven.due task mem t ?_)
  cases task with
  | settle v item =>
    by_contra other
    refine some_item (if_neg ?_)
    rintro rfl
    exact other (decide_eq_true rfl)
  | _ => exact absurd rfl some_item

theorem Ordered.start (ordered : Λ.Ordered) (driven : Λ.Driven) {item : Item} {queue : List Item}
    (idle : Λ.frames = []) (unfinished : (Λ.tx t).state ≠ .finished)
    (next : (Λ.tx t).queue = item :: queue) : (Λ.start t item queue).Ordered := by
  have waits : ¬Λ.Over t := by
    rw [over_idle idle]
    exact unfinished
  have working : ∀ u,Λ.working u = [] := by
    intro u
    rw [Ledger.working,idle]
    rfl
  have self : ((Λ.start t item queue).tx t).queue = queue := by
    rw [show (Λ.start t item queue).tx = (Λ.set t { Λ.tx t with queue }).tx from rfl,set_tx_self]
  have other : ∀ u,u ≠ t → (Λ.start t item queue).tx u = Λ.tx u := by
    intro u different
    rw [show (Λ.start t item queue).tx = (Λ.set t { Λ.tx t with queue }).tx from rfl,set_tx_other _ different]
  have started : (Λ.start t item queue).working t = [item] := by
    have frames : (Λ.start t item queue).frames = [.running t item (Λ.tx t).versions.length] := by
      rw [← idle]
      rfl
    rw [Ledger.working,frames]
    simp [Frame.working]
  have kept : ∀ u,u ≠ t → (Λ.start t item queue).working u = Λ.working u := by
    intro u different
    have frames : (Λ.start t item queue).frames = [.running t item (Λ.tx t).versions.length] := by
      rw [← idle]
      rfl
    rw [Ledger.working,frames,working]
    simp [Frame.working,different.symm]
  have queued := ordered.queued t waits
  unfold Queued at queued
  rw [working,next,List.append_nil] at queued
  refine { fresh := ordered.fresh,numbered := ordered.numbered,increasing := ordered.increasing
           alone := ?_,performed := ?_,settled := ?_,queued := ?_ }
  · refine List.pairwise_cons.mpr ⟨?_,ordered.alone⟩
    intro below mem
    rw [show (Λ.set t { Λ.tx t with queue }).frames = Λ.frames from rfl,idle] at mem
    cases mem
  · intro u
    by_cases same : u = t
    · subst same
      rw [started]
      refine ⟨queue,?_⟩
      rw [List.append_assoc]
      exact queued.symm
    · rw [kept u same]
      exact ordered.performed u
  · intro u
    by_cases same : u = t
    · subst same
      have before := ordered.settled u
      rw [driven.due_nil waits,working,next] at before
      rw [started,self,show (Λ.start u item queue).due u = Λ.due u from rfl,driven.due_nil waits]
      refine before.trans ?_
      rw [show item :: queue = [item] ++ queue from rfl,asking_append]
      simp [asking,show (Λ.start u item queue).log = Λ.log from rfl]
    · rw [kept u same,other u same]
      exact ordered.settled u
  · intro u open_
    unfold Queued
    by_cases same : u = t
    · subst same
      rw [started,self,List.append_assoc]
      exact queued
    · rw [kept u same,other u same]
      refine ordered.queued u ?_
      rintro (finished | ⟨_,target,mem⟩)
      · exact open_ (.inl (by rw [other u same]; exact finished))
      · rw [idle] at mem
        cases mem

theorem Served.working_running (served : Λ.Served) {item : Item} {mark : Nat} {rest : List Frame}
    (frames : Λ.frames = .running t item mark :: rest) :
    (∀ u,Λ.leave.working u = []) ∧ ∀ u,Λ.working u = if t = u then [item] else [] := by
  have alone := served.alone
  rw [frames] at alone
  have bottom : rest = [] := by
    cases rest with
    | nil => rfl
    | cons below rest =>
      have idle := (List.pairwise_cons.mp alone).1 below List.mem_cons_self
      cases idle
  have below : ∀ u,Λ.leave.working u = [] := by
    intro u
    rw [Ledger.working,Ledger.leave,frames,bottom]
    rfl
  refine ⟨below,?_⟩
  intro u
  rw [working_leave frames,below,List.append_nil,Frame.working]
  split <;> rfl

theorem Ordered.turn (ordered : Λ.Ordered) {item : Item} {mark : Nat} {rest : List Frame}
    (frames : Λ.frames = .running t item mark :: rest)
    (nextTx : K.nextTx = Λ.nextTx) (nextItem : K.nextItem = Λ.nextItem)
    (placed : ∀ u,itemsOf K.log .placed u = itemsOf Λ.log .placed u)
    (performed : ∀ u,itemsOf K.log .performed u = itemsOf Λ.log .performed u ++ if t = u then [item] else [])
    (settled : ∀ u,itemsOf K.log .settled u = itemsOf Λ.log .settled u ++ if t = u then asking [item] else [])
    (working : ∀ u,K.working u = []) (alone : K.frames.Pairwise fun a _ => a.item = none)
    (due : ∀ u,K.due u = Λ.due u) (queue : ∀ u,(K.tx u).queue = (Λ.tx u).queue)
    (isOver : ∀ u,Λ.Over u → K.Over u) : K.Ordered := by
  obtain ⟨-,running⟩ := ordered.working_running frames
  refine { fresh := ?_,numbered := ?_,increasing := ?_,alone := alone,performed := ?_
           settled := ?_,queued := ?_ }
  · intro u late
    rw [placed]
    exact ordered.fresh u (nextTx ▸ late)
  · intro u
    rw [placed,nextItem]
    exact ordered.numbered u
  · intro u
    rw [placed]
    exact ordered.increasing u
  · intro u
    rw [placed,performed,working,List.append_nil,← running]
    exact ordered.performed u
  · intro u
    have before := ordered.settled u
    rw [running] at before
    rw [placed,before,settled,working,due,queue]
    split
    · simp [asking]
    · simp [asking]
  · intro u unfinished
    have before := ordered.queued u fun open_ => unfinished (isOver u open_)
    unfold Queued at before ⊢
    rw [running] at before
    rw [placed,before,performed,working,queue,List.append_nil]

theorem performed_log (item : Item) (outcome : Except DomError Result) :
    (∀ u,itemsOf (Λ.performed t item outcome).log .placed u = itemsOf Λ.log .placed u) ∧
    (∀ u,itemsOf (Λ.performed t item outcome).log .settled u = itemsOf Λ.log .settled u) ∧
    ∀ u,itemsOf (Λ.performed t item outcome).log .performed u =
      itemsOf Λ.log .performed u ++ if t = u then [item] else [] := by
  have log : (Λ.performed t item outcome).log = Λ.log ++ [.performed t item outcome] := rfl
  refine ⟨?_,?_,?_⟩
  · intro u
    rw [itemsOf_one log]
    exact List.append_nil _
  · intro u
    rw [itemsOf_one log]
    exact List.append_nil _
  · intro u
    rw [itemsOf_one log,Event.item]
    simp only [true_and]
    split <;> rfl

theorem Ordered.finish (ordered : Λ.Ordered) {item : Item} {mark : Nat} {rest : List Frame}
    (frames : Λ.frames = .running t item mark :: rest) (outcome : Except DomError Result)
    (silent : item.req = none) : (Λ.performed t item outcome).Ordered := by
  obtain ⟨placed,settled,performed⟩ := performed_log (Λ := Λ) (t := t) item outcome
  refine ordered.turn frames rfl rfl placed performed ?_ (ordered.working_running frames).1
    ordered.alone.tail (fun _ => rfl) (fun _ => rfl) fun _ => (over_leave frames rfl).mpr
  intro u
  rw [settled]
  simp [asking,silent]

theorem Ordered.fire (framed : Λ.Framed) (ordered : Λ.Ordered) {item : Item} {mark : Nat}
    {rest : List Frame} (frames : Λ.frames = .running t item mark :: rest)
    (outcome : Except DomError Result) (error : Option DomError) (asks : item.req ≠ none) :
    (Λ.fire t item outcome error).Ordered := by
  obtain ⟨placed,settled,performed⟩ := performed_log (Λ := Λ) (t := t) item outcome
  have below := framed.ready_of_leave frames
  have ready : (Λ.performed t item outcome).Ready t := ⟨below.made,below.born,below.unmasked⟩
  have asked : asking [item] = [item] := by
    simp [asking,Option.isSome_iff_ne_none.mpr asks]
  have fired : ∀ M : Ledger,M.nextTx = Λ.nextTx → M.nextItem = Λ.nextItem → M.log = (Λ.performed t item outcome).log →
      M.frames = Λ.leave.frames → M.tasks = Λ.tasks → (∀ u,(M.tx u).queue = (Λ.tx u).queue) →
      (∀ u,Λ.Over u → M.Over u) →
      ((M.record (.settled t item outcome)).push (.dispatched t error)).Ordered := by
    intro M nextTx nextItem log stack tasks queue isOver
    have logged : ((M.record (.settled t item outcome)).push (.dispatched t error)).log =
        (Λ.performed t item outcome).log ++ [.settled t item outcome] := by
      rw [← log]
      rfl
    have idle := (ordered.working_running frames).1
    refine ordered.turn frames nextTx nextItem ?_ ?_ ?_ ?_ ?_ ?_ queue ?_
    · intro u
      rw [itemsOf_one (Λ := Λ.performed t item outcome) logged,placed]
      exact List.append_nil _
    · intro u
      rw [itemsOf_one (Λ := Λ.performed t item outcome) logged,performed]
      exact List.append_nil _
    · intro u
      rw [itemsOf_one (Λ := Λ.performed t item outcome) logged,settled,Event.item,asked]
      simp only [true_and]
      split <;> rfl
    · intro u
      rw [Ledger.working,show Ledger.frames _ = .dispatched t error :: M.frames from rfl,stack]
      exact idle u
    · refine List.pairwise_cons.mpr ⟨fun _ _ => rfl,?_⟩
      rw [show (M.record (.settled t item outcome)).frames = M.frames from rfl,stack]
      exact ordered.alone.tail
    · intro u
      exact congrArg (List.filterMap (Task.settles u)) tasks
    · intro u ended
      exact (over_push rfl).mpr (isOver u ended)
  have left : ∀ u,Λ.Over u → (Λ.performed t item outcome).Over u := fun _ => (over_leave frames rfl).mpr
  unfold Ledger.fire
  dsimp only
  split_ifs with inactive
  · refine fired _ rfl rfl rfl rfl rfl ?_ ?_
    · intro u
      unfold Ledger.become
      by_cases same : u = t
      · subst same
        rw [set_tx_self]
        rfl
      · rw [set_tx_other _ same]
        rfl
    · intro u ended
      have same : ((Λ.performed t item outcome).become t .active).Over u ↔ (Λ.performed t item outcome).Over u :=
        over_become ready (by rw [inactive]; nofun) nofun
      exact same.mpr (left u ended)
  · exact fired _ rfl rfl rfl rfl rfl (fun _ => rfl) left

theorem due_settlesOf (pending : List Item) (t u : Nat) :
    (settlesOf pending t ++ [Task.aborted t]).filterMap (Task.settles u) =
      if t = u then asking pending else [] := by
  rw [List.filterMap_append,settlesOf,List.filterMap_map]
  split
  next same =>
    subst same
    rw [show (Task.settles t ∘ Task.settle t) = some from funext fun _ => if_pos rfl,List.filterMap_some]
    exact List.append_nil _
  next other =>
    rw [show (Task.settles u ∘ Task.settle t) = fun _ => none from funext fun _ => if_neg other]
    simp [Task.settles]

theorem Served.abortTx (served : Λ.Served) (queued : ∀ u,u ≠ t → ¬Λ.Over u → Λ.Queued u)
    (unfinished : (Λ.tx t).state ≠ .finished) (scope : Option (List Nat)) : (Λ.abortTx t scope).Ordered := by
  have isOver := fun u => over_abortTx (Λ := Λ) (t := t) (u := u) scope
  rw [abortTx_eq Λ unfinished] at isOver ⊢
  have tx : ∀ u,u ≠ t → Ledger.tx ({ Λ with
      database := Λ.abortedDatabase t
      connections := Λ.abortedConnections t
      tasks := Λ.tasks ++ settlesOf (Λ.tx t).queue t ++ [Task.aborted t] }.set t
        (Λ.abortedTx t scope)) u = Λ.tx u := by
    intro u other
    rw [set_tx_other _ other]
  refine { fresh := served.fresh,numbered := served.numbered,increasing := served.increasing
           alone := served.alone,performed := served.performed,settled := ?_,queued := ?_ }
  · intro u
    have before := served.settled u
    have due : Ledger.due ({ Λ with
        database := Λ.abortedDatabase t
        connections := Λ.abortedConnections t
        tasks := Λ.tasks ++ settlesOf (Λ.tx t).queue t ++ [Task.aborted t] }.set t
          (Λ.abortedTx t scope)) u = Λ.due u ++ if t = u then asking (Λ.tx t).queue else [] := by
      rw [← due_settlesOf,Ledger.due,show Ledger.tasks _ = Λ.tasks ++ settlesOf (Λ.tx t).queue t ++
        [Task.aborted t] from rfl,List.append_assoc,List.filterMap_append]
      rfl
    rw [due]
    by_cases same : u = t
    · subst same
      rw [if_pos rfl,set_tx_self,show (Λ.abortedTx u scope).queue = [] from rfl]
      refine before.trans ?_
      rw [show asking [] = [] from rfl,List.append_nil,List.append_assoc _ (Λ.due u)]
      rfl
    · rw [if_neg (Ne.symm same),tx u same,List.append_nil]
      exact before
  · intro u open_
    rw [isOver,not_or] at open_
    have before := queued u open_.2 open_.1
    unfold Queued at before ⊢
    rw [tx u open_.2]
    exact before

theorem Ordered.abortTx (ordered : Λ.Ordered) (t : Nat) (scope : Option (List Nat)) :
    (Λ.abortTx t scope).Ordered := by
  by_cases finished : (Λ.tx t).state = .finished
  · rw [abortTx_finished Λ finished]
    exact ordered
  · exact ordered.toServed.abortTx (fun u _ => ordered.queued u) finished scope

theorem Ordered.fail (framed : Λ.Framed) (driven : Λ.Driven) (ordered : Λ.Ordered) {item : Item}
    {mark : Nat} {rest : List Frame} (frames : Λ.frames = .running t item mark :: rest)
    (outcome : Except DomError Result) (scope : Option (List Nat))
    (doomed : item.req = none ∨ (Λ.tx t).state = .committing) : (Λ.fail t item outcome scope).Ordered := by
  unfold Ledger.fail
  dsimp only
  split_ifs with silent
  · exact (ordered.finish frames outcome silent).abortTx t scope
  · have committing := doomed.resolve_left silent
    have ready : Λ.Ready t := framed.ready_of_top frames rfl
    have unfinished : ¬Λ.Over t := by
      rw [over_ready ready,committing]
      nofun
    obtain ⟨placed,settled,performed⟩ := performed_log (Λ := Λ) (t := t) item outcome
    obtain ⟨idle,running⟩ := ordered.working_running frames
    have self : ∀ queue,(((Λ.performed t item outcome).set t
        { (Λ.performed t item outcome).tx t with queue }).tx t).queue = queue := by
      intro queue
      rw [set_tx_self]
    have other : ∀ queue u,u ≠ t → ((Λ.performed t item outcome).set t
        { (Λ.performed t item outcome).tx t with queue }).tx u = Λ.tx u := by
      intro queue u different
      rw [set_tx_other _ different]
      rfl
    refine Served.abortTx ?_ ?_ ?_ scope
    · refine { fresh := ?_,numbered := ?_,increasing := ?_,alone := ordered.alone.tail,performed := ?_
               settled := ?_ }
      · intro u late
        exact (placed u).trans (ordered.fresh u late)
      · intro u item mem
        exact ordered.numbered u item (placed u ▸ mem)
      · intro u
        exact (placed u).symm ▸ ordered.increasing u
      · intro u
        have kept : itemsOf (Λ.performed t item outcome).log .performed u ++ Λ.leave.working u <+:
            itemsOf (Λ.performed t item outcome).log .placed u := by
          rw [placed,performed,idle,List.append_nil,← running]
          exact ordered.performed u
        exact kept
      · intro u
        have before := ordered.settled u
        have kept : asking (itemsOf (Λ.performed t item outcome).log .placed u) =
            itemsOf (Λ.performed t item outcome).log .settled u ++ asking (Λ.leave.working u) ++ Λ.due u ++
              asking (((Λ.performed t item outcome).set t { (Λ.performed t item outcome).tx t with
                queue := item :: ((Λ.performed t item outcome).tx t).queue }).tx u).queue := by
          rw [placed,settled,idle,before,running]
          by_cases same : u = t
          · subst same
            rw [self,if_pos rfl,driven.due_nil unfinished,
              show item :: ((Λ.performed u item outcome).tx u).queue = [item] ++ (Λ.tx u).queue from rfl,
              asking_append]
            simp [asking]
          · rw [other _ u same,if_neg (Ne.symm same)]
        exact kept
    · intro u different open_
      have before := ordered.queued u fun isOver => open_ <| by
        have left : Λ.leave.Over u := (over_leave frames rfl).mpr isOver
        have state := congrArg Account.state (other (item :: ((Λ.performed t item outcome).tx t).queue) u different)
        have same := over_congr (K := (Λ.performed t item outcome).set t _) (Λ := Λ.leave) state fun _ => Iff.rfl
        exact same.mpr left
      unfold Queued at before
      rw [running,if_neg (Ne.symm different)] at before
      have kept : itemsOf (Λ.performed t item outcome).log .placed u =
          itemsOf (Λ.performed t item outcome).log .performed u ++ Λ.leave.working u ++
            (((Λ.performed t item outcome).set t { (Λ.performed t item outcome).tx t with
              queue := item :: ((Λ.performed t item outcome).tx t).queue }).tx u).queue := by
        rw [placed,performed,idle,other _ u different,if_neg (Ne.symm different),before]
        simp only [List.append_nil]
      exact kept
    · rw [set_tx_self]
      intro finished
      have state : (Λ.tx t).state = .finished := finished
      rw [committing] at state
      cases state

theorem Ordered.settle (ordered : Λ.Ordered) {item : Item} {tasks : List Task} (idle : Λ.frames = [])
    (timer : Λ.tasks = .settle t item :: tasks) (outcome : Except DomError Result) :
    (Λ.settle t item outcome tasks).Ordered := by
  have log : (Λ.settle t item outcome tasks).log = Λ.log ++ [.settled t item outcome] := rfl
  have placed : ∀ u,itemsOf (Λ.settle t item outcome tasks).log .placed u = itemsOf Λ.log .placed u := by
    intro u
    rw [itemsOf_one log]
    exact List.append_nil _
  have performed : ∀ u,
      itemsOf (Λ.settle t item outcome tasks).log .performed u = itemsOf Λ.log .performed u := by
    intro u
    rw [itemsOf_one log]
    exact List.append_nil _
  have working : ∀ u,Λ.working u = [] := by
    intro u
    rw [Ledger.working,idle]
    rfl
  have due : ∀ u,Λ.due u = (if t = u then [item] else []) ++ (Λ.settle t item outcome tasks).due u := by
    intro u
    rw [Ledger.due,timer,List.filterMap_cons,Task.settles]
    split_ifs
    · rfl
    · rfl
  refine { fresh := ?_,numbered := ?_,increasing := ?_,alone := ordered.alone,performed := ?_
           settled := ?_,queued := ?_ }
  · intro u late
    exact (placed u).trans (ordered.fresh u late)
  · intro u
    rw [placed]
    exact ordered.numbered u
  · intro u
    rw [placed]
    exact ordered.increasing u
  · intro u
    rw [placed,performed]
    exact ordered.performed u
  · intro u
    have before := ordered.settled u
    rw [working,due] at before
    have still : (Λ.settle t item outcome tasks).working u = [] := working u
    rw [placed,before,itemsOf_one log,Event.item,still]
    simp only [true_and]
    split_ifs
    · simp [asking,show (Λ.settle t item outcome tasks).tx = Λ.tx from rfl]
    · simp [asking,show (Λ.settle t item outcome tasks).tx = Λ.tx from rfl]
  · intro u open_
    have before := ordered.queued u fun isOver => open_ (over_congr rfl (fun _ => Iff.rfl) |>.mpr isOver)
    unfold Queued at before ⊢
    rw [placed,performed]
    exact before

theorem Ordered.add (ordered : Λ.Ordered) {account : Account} {task : Task}
    (nextTx : K.nextTx = Λ.nextTx + 1) (nextItem : K.nextItem = Λ.nextItem) (log : K.log = Λ.log)
    (tx : K.tx = Function.update Λ.tx Λ.nextTx account) (frames : K.frames = Λ.frames)
    (tasks : K.tasks = Λ.tasks ++ [task]) (silent : ∀ u,task.settles u = none)
    (empty : account.queue = []) : K.Ordered := by
  have due := due_append (K := K) (Λ := Λ) (by simpa using silent) tasks
  have working : ∀ u,K.working u = Λ.working u := fun u => by rw [Ledger.working,frames]; rfl
  have other : ∀ u,u ≠ Λ.nextTx → K.tx u = Λ.tx u := fun u h => by rw [tx,Function.update_of_ne h]
  have fresh := ordered.fresh Λ.nextTx le_rfl
  refine { fresh := ?_,numbered := ?_,increasing := ?_,alone := ?_,performed := ?_,settled := ?_
           queued := ?_ }
  · intro u late
    rw [log]
    exact ordered.fresh u (by omega)
  · rw [log,nextItem]
    exact ordered.numbered
  · rw [log]
    exact ordered.increasing
  · rw [frames]
    exact ordered.alone
  · intro u
    rw [log,working]
    exact ordered.performed u
  · intro u
    have before := ordered.settled u
    rw [log,working,due]
    by_cases same : u = Λ.nextTx
    · subst same
      rw [fresh] at before
      have none_left := List.append_eq_nil_iff.mp before.symm
      rw [fresh,tx,Function.update_self,empty,none_left.1]
      rfl
    · rw [other u same]
      exact before
  · intro u open_
    unfold Queued
    rw [log,working]
    by_cases same : u = Λ.nextTx
    · subst same
      have before := ordered.performed Λ.nextTx
      rw [fresh] at before
      rw [fresh,tx,Function.update_self,empty,List.prefix_nil.mp before]
      rfl
    · rw [other u same]
      refine ordered.queued u fun isOver => open_ ?_
      exact (over_congr (by rw [other u same]) fun _ => by rw [frames]).mpr isOver

theorem Ordered.upgrade (ordered : Λ.Ordered) (req c version : Nat) : (Λ.upgrade req c version).Ordered := by
  cases database : Λ.database with
  | none =>
    unfold Ledger.upgrade
    rw [database]
    exact ordered
  | some old =>
    rw [upgrade_eq Λ database]
    exact ordered.add rfl rfl rfl rfl rfl rfl (fun _ => rfl) rfl

/-! ### Moves -/

theorem Frame.isPlain_item {frame : Frame} (plain : frame.isPlain = true) : frame.item = none := by
  cases frame with
  | running t item mark => cases plain
  | _ => rfl

theorem Ordered.move (framed : Λ.Framed) (driven : Λ.Driven) (ordered : Λ.Ordered) (move : Λ.Move K) :
    K.Ordered := by
  have quiet : ∀ {M N : Ledger},Quiet M N → N.log = M.log → M.Ordered → N.Ordered := by
    intro M N quiet log ordered
    exact ordered.still (quiet.still fun _ _ => by rw [log])
  cases move with
  | request request =>
    have recorded := ordered.still (.record (.requested request) fun _ _ => rfl)
    exact quiet (connect_quiet _) rfl recorded
  | close c => exact quiet (connect_quiet _) rfl ordered
  | create c mode scope =>
    rw [create_eq]
    exact ordered.add rfl rfl rfl rfl rfl rfl (fun _ => rfl) rfl
  | place t op req ready => exact ordered.place ready op req
  | schedule t made => exact quiet (schedule_quiet made) (schedule_log t) ordered
  | become t state ready before after =>
    exact ordered.still (.update rfl rfl rfl rfl rfl (fun _ => rfl) id (fun _ => rfl)
      fun _ => (over_become ready before after).mpr)
  | remember t n =>
    exact ordered.still (.account (t := t) rfl rfl rfl rfl rfl rfl rfl fun _ => rfl)
  | rollback t item mark =>
    exact ordered.still (.account (t := t) rfl rfl rfl rfl rfl rfl rfl fun _ => rfl)
  | abort t scope => exact ordered.abortTx t scope
  | enter frame ready listed plain =>
    exact ordered.still (.push (Frame.isPlain_item plain) (Frame.isPlain_cloning plain))
  | leave frame rest frames plain =>
    exact ordered.still (.leave frames (Frame.isPlain_item plain) (Frame.isPlain_cloning plain))
  | mask t target ready =>
    refine ordered.still (.update rfl rfl rfl rfl rfl (fun _ => rfl) ?_ (fun _ => rfl)
      fun _ => (over_mask ready target).mpr)
    exact fun shape => List.pairwise_cons.mpr ⟨fun _ _ => rfl,shape⟩
  | unmask t target prev rest frames =>
    refine ordered.still (.update rfl rfl rfl rfl rfl ?_ List.Pairwise.tail (fun _ => rfl)
      fun _ => (over_unmask framed frames).mpr)
    intro u
    exact (working_leave frames u).symm
  | again t tasks timer =>
    refine ordered.still (.account (t := t) rfl rfl rfl rfl rfl rfl rfl fun u => ?_)
    have turned : Ledger.due { Λ with tasks } u = Λ.due u := due_turn timer (fun _ => rfl) rfl u
    rw [← turned]
    have later : (Λ.again t tasks).tasks = Ledger.tasks { Λ with tasks } ++ [Task.step t] := rfl
    refine due_append ?_ later u
    intro task mem v
    rw [List.mem_singleton.mp mem]
    rfl
  | rest t tasks timer =>
    exact ordered.still (.account (t := t) rfl rfl rfl rfl rfl rfl rfl (due_turn timer (fun _ => rfl) rfl))
  | start t item queue idle made born unfinished next => exact ordered.start driven idle unfinished next
  | finish t item mark rest frames outcome silent => exact ordered.finish frames outcome silent
  | fire t item mark rest frames outcome error asks => exact ordered.fire framed frames outcome error asks
  | fail t item mark rest frames outcome scope doomed =>
    exact ordered.fail framed driven frames outcome scope doomed
  | complete t scope idle made born committing done =>
    rw [complete_eq]
    have ended : Still Λ ({ Λ with upgradeTx := Λ.upgradeAfter t }.set t (Λ.completedTx t scope)) := by
      refine .update (t := t) rfl rfl rfl rfl rfl (fun _ => rfl) id (fun _ => rfl) ?_
      intro u isOver
      by_cases same : u = t
      · subst same
        exact .inl (by rw [set_tx_self]; rfl)
      · exact over_other same rfl rfl isOver
    exact ordered.still ((ended.trans (.record (.ended t false) fun _ _ => rfl)).trans (.push rfl rfl))
  | finalize t frame rest frames ends isOver =>
    have idle : frame.item = none ∧ frame.isCloning = false := by
      cases frame with
      | completing u | aborting u => exact ⟨rfl,rfl⟩
      | _ => cases ends
    have left := ordered.still (.leave frames idle.1 idle.2)
    exact quiet (finalizeTx_quiet framed.leave t) (finalizeTx_log t) left
  | settle t item tasks idle timer outcome => exact ordered.settle idle timer outcome
  | endAborted t tasks idle timer isOver =>
    rw [endAborted_eq]
    have turned : Still Λ { Λ with tasks } := .turn timer fun _ => rfl
    have unset : ∀ upgradeTx,Still { Λ with tasks } { Λ with tasks,upgradeTx } :=
      fun upgradeTx => ⟨rfl,rfl,fun _ _ => rfl,fun _ => rfl,id,fun _ => rfl,fun _ => rfl,fun _ => id⟩
    exact ordered.still (((turned.trans (unset _)).trans (.record (.ended t true) fun _ _ => rfl)).trans
      (.push rfl rfl))
  | release t tasks idle timer =>
    have turned := ordered.still (.turn timer fun _ => rfl)
    have made : t < Λ.nextTx := framed.timed (.upgradeNeeded t) (by simp [timer]) t rfl
    have inactive := framed.held t (framed.held_of_releasing timer)
    have freed : ∀ connections,Still { Λ with tasks }
        ({ Λ with tasks,connections }.set t { Λ.tx t with state := .active,hold := false }) := by
      intro connections
      refine .update (t := t) rfl rfl rfl rfl rfl (fun _ => rfl) id (fun _ => rfl) ?_
      intro u isOver
      have other : u ≠ t := by
        rintro rfl
        have finished : (Λ.tx u).state = .finished := (over_idle idle).mp isOver
        rw [inactive] at finished
        cases finished
      exact over_other other rfl rfl isOver
    have scheduled : ∀ M : Ledger,t < M.nextTx → Still M (M.schedule t) := by
      intro M made
      exact (schedule_quiet made).still fun _ _ => by rw [schedule_log]
    exact turned.still (((freed _).trans (scheduled _ made)).trans (.push rfl rfl))
  | connection task tasks idle timer =>
    have turned := ordered.still (.turn timer fun _ => rfl)
    rcases connectionTask_quiet (Λ := { Λ with tasks }) task with calm | ⟨req,c,version,same⟩
    · by_cases upgrading : ∃ req c version,Ledger.connectionTask { Λ with tasks } task =
          Ledger.upgrade { Λ with tasks } req c version
      · obtain ⟨req,c,version,same⟩ := upgrading
        rw [same]
        exact turned.upgrade req c version
      · refine turned.still (calm.still fun stage u => ?_)
        exact (connectionTask_log task stage u).resolve_right upgrading
    · rw [same]
      exact turned.upgrade req c version

end Ledger

end Sharko.Script.IndexedDb
