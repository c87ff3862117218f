import Mathlib.Data.List.Count
import Mathlib.Data.List.Perm.Basic
import Sharko.Script.PageScripts

/-! Where the scripts of a document are on their way, those that other scripts insert left out.
Every script of the parser has one place at a time, and the two queues keep document order. -/

namespace Sharko.Script.PageScripts

open Library

namespace Element

variable (el : Element)

/-- The three kinds of scripts that run; a broken one only has its error reported. -/
def Blocking : Prop := el.broken = false ∧ el.placement = .blocking

def Deferred : Prop := el.broken = false ∧ el.placement = .defer

def Async : Prop := el.broken = false ∧ el.placement = .async

instance : Decidable el.Blocking := inferInstanceAs (Decidable (_ ∧ _))

instance : Decidable el.Deferred := inferInstanceAs (Decidable (_ ∧ _))

instance : Decidable el.Async := inferInstanceAs (Decidable (_ ∧ _))

end Element

def started (log : List Entry) : List Record :=
  log.filterMap fun
    | .started (.parser rec) => some rec
    | _ => none

def finished (log : List Entry) : List Record :=
  log.filterMap fun
    | .finished (.parser rec) _ => some rec
    | _ => none

def Fetch.asyncRecord : Fetch → Option Record
  | .async rec => some rec
  | _ => none

def Fetch.inOrderRecord : Fetch → Option Record
  | .inOrder rec => some rec
  | _ => none

def Task.runRecord : Task → Option Record
  | .run rec => some rec
  | _ => none

def Task.errorRecord : Task → Option Record
  | .error rec => some rec
  | _ => none

def Module.deferredRecord : Module → Option Record
  | .deferred rec => some rec
  | _ => none

def Module.asyncRecord : Module → Option Record
  | .async rec => some rec
  | _ => none

structure View where
  states : Nat → FetchState
  parserQueue : List Record
  deferQueue : List Record
  asyncWaiting : List Record
  inOrder : List Record
  fetching : List Record
  runs : List Record
  errors : List Record
  deferring : List Record
  evaluating : List Record
  deferRunning : Bool
  parsingFinished : Bool
  deferredDone : Bool
  started : List Record
  finished : List Record

namespace Document

def view (s : Document) : View where
  states := s.states
  parserQueue := s.parserQueue
  deferQueue := s.deferQueue
  asyncWaiting := s.asyncWaiting
  inOrder := s.fetches.filterMap Fetch.inOrderRecord
  fetching := s.fetches.filterMap Fetch.asyncRecord
  runs := s.tasks.filterMap Task.runRecord
  errors := s.tasks.filterMap Task.errorRecord
  deferring := s.modules.filterMap Module.deferredRecord
  evaluating := s.modules.filterMap Module.asyncRecord
  deferRunning := s.deferRunning
  parsingFinished := s.parsingFinished
  deferredDone := s.deferredDone
  started := PageScripts.started s.log
  finished := PageScripts.finished s.log

variable (page : Page) (s : Document)

@[simp] theorem view_insert (d : Dynamic) : (s.insert d).view = s.view := by
  cases d <;> simp [insert,view,PageScripts.started,PageScripts.finished,List.filterMap_append,
    List.filterMap_cons,Fetch.inOrderRecord,Fetch.asyncRecord,Module.deferredRecord,Module.asyncRecord]

@[simp] theorem view_insertAll (ds : List Dynamic) : (s.insertAll ds).view = s.view := by
  induction ds generalizing s with
  | nil => rfl
  | cons d ds ih => exact (ih (s.insert d)).trans (view_insert s d)

theorem view_exec (rec : Record) (executed : Bool) : (s.exec page (.parser rec) executed).view = { s.view with
      started := rec :: s.view.started
      finished := rec :: s.view.finished } := by
  rw [exec,view_insertAll]
  rfl

@[simp] theorem view_exec_dynamic (id : Nat) (executed : Bool) :
    (s.exec page (.dynamic id) executed).view = s.view := by
  rw [exec,view_insertAll]
  rfl

@[simp] theorem view_maybeFireLoad : (s.maybeFireLoad page).view = s.view := by
  unfold maybeFireLoad
  repeat' split
  all_goals simp [view,PageScripts.started,PageScripts.finished,List.filterMap_append,
    List.filterMap_cons,Task.runRecord,Task.errorRecord]

end Document

namespace View

variable (v : View)

def live : List Record :=
  v.parserQueue ++ v.deferQueue ++ v.asyncWaiting ++ v.fetching ++ v.runs ++ v.errors ++
    v.deferring ++ v.evaluating

def mayRun (rec : Record) : Bool :=
  v.parsingFinished ||
    match v.parserQueue with
    | [] => true
    | first :: _ => decide (rec.seq < first.seq)

def release : View :=
  { v with
    asyncWaiting := v.asyncWaiting.filter fun rec => !v.mayRun rec
    runs := v.runs ++ v.asyncWaiting.filter fun rec => v.mayRun rec }

end View

def blocking (recs : List Record) : List Record := recs.filter fun rec => rec.Blocking

def deferred (recs : List Record) : List Record := recs.filter fun rec => rec.Deferred

/-- Each script has one place. The hand holds the one that has left its queue and is about to run. -/
structure Sound (recs hand : List Record) (v : View) : Prop where
  places : ∀ rec,hand.count rec + v.live.count rec + v.finished.count rec = recs.count rec
  begun : ∀ rec,v.started.count rec =
    v.deferring.count rec + v.evaluating.count rec + v.finished.count rec
  blocking : ∃ past,blocking recs = past ++ blocking hand ++ v.parserQueue ∧
    ∀ rec ∈ past,rec ∈ v.finished
  deferred : ∃ past,deferred recs = past ++ deferred hand ++ v.deferring ++ v.deferQueue ∧
    ∀ rec ∈ past,rec ∈ v.finished
  parsed : v.parsingFinished = true →
    v.parserQueue = [] ∧ PageScripts.blocking hand = [] ∧ v.asyncWaiting = []
  unparsed : v.parsingFinished = false →
    PageScripts.deferred hand = [] ∧ v.deferring = [] ∧ v.deferredDone = false
  running : v.deferRunning = true ↔ v.deferring ≠ []
  single : v.deferring.length ≤ 1
  done : v.deferredDone = true →
    v.deferQueue = [] ∧ v.deferring = [] ∧ PageScripts.deferred hand = []
  asyncs : ∀ rec ∈ v.asyncWaiting ++ v.fetching ++ v.runs,rec.Async
  broken : ∀ rec ∈ v.errors,rec.broken = true
  cleared : ∀ rec ∈ v.runs,∀ other ∈ recs,other.Blocking → other.seq < rec.seq →
    other ∈ v.finished ∨ other ∈ hand
  fetched : ∀ rec ∈ v.parserQueue ++ v.deferQueue,rec.kind = .classic →
    v.states rec.seq = .pending → rec ∈ v.inOrder
  inOrder : ∀ rec ∈ v.inOrder,rec ∈ recs

/-- In document order, and so without repetitions. -/
def Ordered (recs : List Record) : Prop := recs.Pairwise fun first second => first.seq < second.seq

theorem Ordered.nodup {recs : List Record} (ordered : Ordered recs) : recs.Nodup := by
  refine List.Pairwise.imp ?_ ordered
  rintro first second before rfl
  exact absurd before (Nat.lt_irrefl _)

theorem Ordered.eq_of_seq {recs : List Record} (ordered : Ordered recs) {first second : Record}
    (one : first ∈ recs) (two : second ∈ recs) (same : first.seq = second.seq) : first = second := by
  by_contra differ
  rcases List.pairwise_iff_getElem.mp ordered with apart
  obtain ⟨i,inside,rfl⟩ := List.mem_iff_getElem.mp one
  obtain ⟨j,inside',rfl⟩ := List.mem_iff_getElem.mp two
  rcases Nat.lt_trichotomy i j with before | rfl | after
  · exact absurd same (Nat.ne_of_lt (apart i j inside inside' before))
  · exact differ rfl
  · exact absurd same (Nat.ne_of_gt (apart j i inside' inside after))

namespace Sound

variable {recs hand : List Record} {v : View} {rec : Record} {rest : List Record}

theorem mem_blocking {rec : Record} : rec ∈ PageScripts.blocking recs ↔ rec ∈ recs ∧ rec.Blocking := by
  simp [PageScripts.blocking]

theorem mem_deferred {rec : Record} : rec ∈ PageScripts.deferred recs ↔ rec ∈ recs ∧ rec.Deferred := by
  simp [PageScripts.deferred]

theorem parser_blocking (sound : Sound recs hand v) (member : rec ∈ v.parserQueue) :
    rec ∈ recs ∧ rec.Blocking := by
  obtain ⟨past,split,-⟩ := sound.blocking
  exact mem_blocking.mp (split ▸ List.mem_append_right _ member)

theorem defer_deferred (sound : Sound recs hand v) (member : rec ∈ v.deferring ++ v.deferQueue) :
    rec ∈ recs ∧ rec.Deferred := by
  obtain ⟨past,split,-⟩ := sound.deferred
  rw [List.append_assoc] at split
  exact mem_deferred.mp (split ▸ List.mem_append_right _ member)

theorem blocking_singleton (isBlocking : rec.Blocking) : PageScripts.blocking [rec] = [rec] := by
  simp [PageScripts.blocking,isBlocking]

theorem deferred_singleton (isDeferred : rec.Deferred) : PageScripts.deferred [rec] = [rec] := by
  simp [PageScripts.deferred,isDeferred]

theorem Blocking.not_deferred {el : Element} (isBlocking : el.Blocking) : ¬el.Deferred := by
  rintro ⟨-,wrong⟩
  rw [isBlocking.2] at wrong
  cases wrong

theorem shift (sound : Sound recs [] v) (queue : v.parserQueue = rec :: rest) :
    Sound recs [rec] { v with parserQueue := rest } := by
  have isBlocking := (sound.parser_blocking (queue ▸ List.mem_cons_self)).2
  have notDeferred : PageScripts.deferred [rec] = [] := by
    simp [PageScripts.deferred,Blocking.not_deferred isBlocking]
  have unparsed : v.parsingFinished = false := by
    cases parsed : v.parsingFinished with
    | false => rfl
    | true =>
      have none := (sound.parsed parsed).1
      rw [queue] at none
      cases none
  exact { sound with
    places := by
      intro other
      have places := sound.places other
      simp only [View.live,queue,List.count_append,List.count_cons,List.count_nil] at places ⊢
      omega
    blocking := by
      obtain ⟨past,split,isOver⟩ := sound.blocking
      refine ⟨past,?_,isOver⟩
      rw [blocking_singleton isBlocking,split,queue]
      simp [PageScripts.blocking]
    deferred := by
      rw [notDeferred]
      exact sound.deferred
    parsed := by simp [unparsed]
    unparsed := fun _ => ⟨notDeferred,(sound.unparsed unparsed).2⟩
    done := fun done => ⟨(sound.done done).1,(sound.done done).2.1,notDeferred⟩
    cleared := fun run member other known isBlocking before =>
      .inl ((sound.cleared run member other known isBlocking before).resolve_right nofun)
    fetched := by
      intro other member
      refine sound.fetched other ?_
      rw [queue]
      exact List.mem_cons_of_mem _ member }

theorem cleared_of_mayRun (sound : Sound recs hand v) (ordered : Ordered recs)
    (may : v.mayRun rec = true) {other : Record} (known : other ∈ recs)
    (isBlocking : other.Blocking) (before : other.seq < rec.seq) : other ∈ v.finished ∨ other ∈ hand := by
  obtain ⟨past,split,isOver⟩ := sound.blocking
  have member : other ∈ PageScripts.blocking recs := mem_blocking.mpr ⟨known,isBlocking⟩
  rw [split] at member
  rcases List.mem_append.mp member with early | late
  · rcases List.mem_append.mp early with done | held
    · exact .inl (isOver other done)
    · exact .inr (mem_blocking.mp held).1
  · cases queue : v.parserQueue with
    | nil => simp [queue] at late
    | cons first rest =>
      have unparsed : v.parsingFinished = false := by
        cases parsed : v.parsingFinished with
        | false => rfl
        | true =>
          have none := (sound.parsed parsed).1
          rw [queue] at none
          cases none
      have further : rec.seq < first.seq := by simpa [View.mayRun,unparsed,queue] using may
      have sorted : (PageScripts.blocking recs).Pairwise fun a b => a.seq < b.seq :=
        ordered.filter _
      rw [split,queue] at sorted
      rw [queue] at late
      rcases List.mem_cons.mp late with rfl | later
      · omega
      · have above := (List.pairwise_cons.mp (List.pairwise_append.mp sorted).2.1).1 other later
        omega

theorem release (sound : Sound recs hand v) (ordered : Ordered recs) : Sound recs hand v.release :=
  { sound with
    places := by
      intro other
      have places := sound.places other
      have parts := (List.filter_append_perm (fun rec => v.mayRun rec) v.asyncWaiting).count_eq other
      rw [List.count_append] at parts
      simp only [View.live,View.release,List.count_append] at places ⊢
      omega
    parsed := by
      intro parsed
      obtain ⟨queue,held,waiting⟩ := sound.parsed parsed
      exact ⟨queue,held,by simp [View.release,waiting]⟩
    asyncs := by
      intro other member
      refine sound.asyncs other ?_
      simp only [View.release,List.mem_append,List.mem_filter] at member ⊢
      tauto
    cleared := by
      intro run member
      rcases List.mem_append.mp member with earlier | now
      · exact sound.cleared run earlier
      · exact fun other known isBlocking before =>
          sound.cleared_of_mayRun ordered (List.mem_filter.mp now).2 known isBlocking before }

theorem finish (sound : Sound recs [rec] v) :
    Sound recs [] { v with started := rec :: v.started,finished := rec :: v.finished } :=
  { sound with
    places := by
      intro other
      have places := sound.places other
      simp only [View.live,List.count_append,List.count_cons,List.count_nil] at places ⊢
      omega
    begun := by
      intro other
      have begun := sound.begun other
      simp only [List.count_cons] at begun ⊢
      omega
    blocking := by
      obtain ⟨past,split,isOver⟩ := sound.blocking
      refine ⟨past ++ PageScripts.blocking [rec],by simpa [PageScripts.blocking] using split,?_⟩
      intro other member
      rcases List.mem_append.mp member with early | held
      · exact List.mem_cons_of_mem _ (isOver other early)
      · exact List.mem_singleton.mp (mem_blocking.mp held).1 ▸ List.mem_cons_self
    deferred := by
      obtain ⟨past,split,isOver⟩ := sound.deferred
      refine ⟨past ++ PageScripts.deferred [rec],by simpa [PageScripts.deferred] using split,?_⟩
      intro other member
      rcases List.mem_append.mp member with early | held
      · exact List.mem_cons_of_mem _ (isOver other early)
      · exact List.mem_singleton.mp (mem_deferred.mp held).1 ▸ List.mem_cons_self
    parsed := fun parsed => ⟨(sound.parsed parsed).1,rfl,(sound.parsed parsed).2.2⟩
    unparsed := fun unparsed => ⟨rfl,(sound.unparsed unparsed).2⟩
    done := fun done => ⟨(sound.done done).1,(sound.done done).2.1,rfl⟩
    cleared := by
      intro run member other known isBlocking before
      refine .inl ?_
      rcases sound.cleared run member other known isBlocking before with isOver | held
      · exact List.mem_cons_of_mem _ isOver
      · exact List.mem_singleton.mp held ▸ List.mem_cons_self }

theorem take (sound : Sound recs [] v) (queue : v.deferQueue = rec :: rest)
    (parsed : v.parsingFinished = true) (still : v.deferRunning = false) :
    Sound recs [rec] { v with deferQueue := rest } := by
  have isDeferred : rec.Deferred :=
    (sound.defer_deferred (queue ▸ List.mem_append_right _ List.mem_cons_self)).2
  have notBlocking : PageScripts.blocking [rec] = [] := by
    have not : ¬rec.Blocking := fun isBlocking => Blocking.not_deferred isBlocking isDeferred
    simp [PageScripts.blocking,not]
  have none : v.deferring = [] := by
    by_contra some
    rw [sound.running.mpr some] at still
    cases still
  exact { sound with
    places := by
      intro other
      have places := sound.places other
      simp only [View.live,queue,List.count_append,List.count_cons,List.count_nil] at places ⊢
      omega
    blocking := by
      rw [notBlocking]
      exact sound.blocking
    deferred := by
      obtain ⟨past,split,isOver⟩ := sound.deferred
      refine ⟨past,?_,isOver⟩
      rw [deferred_singleton isDeferred,split,queue,none]
      simp [PageScripts.deferred]
    parsed := fun _ => ⟨(sound.parsed parsed).1,notBlocking,(sound.parsed parsed).2.2⟩
    unparsed := fun unparsed => by rw [parsed] at unparsed; cases unparsed
    done := by
      intro done
      have none := (sound.done done).1
      rw [queue] at none
      cases none
    cleared := fun run member other known isBlocking before =>
      .inl ((sound.cleared run member other known isBlocking before).resolve_right nofun)
    fetched := by
      intro other member
      refine sound.fetched other ?_
      rw [queue]
      rcases List.mem_append.mp member with parser | later
      · exact List.mem_append_left _ parser
      · exact List.mem_append_right _ (List.mem_cons_of_mem _ later) }

theorem begin (sound : Sound recs [] v) (queue : v.deferQueue = rec :: rest)
    (parsed : v.parsingFinished = true) (still : v.deferRunning = false) : Sound recs [] { v with
      deferQueue := rest
      deferRunning := true
      deferring := v.deferring ++ [rec]
      started := rec :: v.started } := by
  have none : v.deferring = [] := by
    by_contra some
    rw [sound.running.mpr some] at still
    cases still
  exact { sound with
    places := by
      intro other
      have places := sound.places other
      simp only [View.live,queue,List.count_append,List.count_cons,List.count_nil] at places ⊢
      omega
    begun := by
      intro other
      have begun := sound.begun other
      simp only [List.count_append,List.count_cons,List.count_nil] at begun ⊢
      omega
    deferred := by
      obtain ⟨past,split,isOver⟩ := sound.deferred
      refine ⟨past,?_,isOver⟩
      rw [split,queue,none]
      simp
    unparsed := fun unparsed => by rw [parsed] at unparsed; cases unparsed
    running := by simp
    single := by simp [none]
    done := by
      intro done
      have none := (sound.done done).1
      rw [queue] at none
      cases none
    fetched := by
      intro other member
      refine sound.fetched other ?_
      rw [queue]
      rcases List.mem_append.mp member with parser | later
      · exact List.mem_append_left _ parser
      · exact List.mem_append_right _ (List.mem_cons_of_mem _ later) }

theorem close (sound : Sound recs [] v) (queue : v.deferQueue = [])
    (parsed : v.parsingFinished = true) (still : v.deferRunning = false) :
    Sound recs [] { v with deferredDone := true } :=
  { sound with
    unparsed := fun unparsed => by rw [parsed] at unparsed; cases unparsed
    done := by
      refine fun _ => ⟨queue,?_,rfl⟩
      by_contra some
      rw [sound.running.mpr some] at still
      cases still }

theorem parse (sound : Sound recs [] v) (ordered : Ordered recs) (queue : v.parserQueue = []) :
    Sound recs [] { v with parsingFinished := true }.release := by
  have same : { v with parsingFinished := true }.release = { v.release with parsingFinished := true } := by
    simp [View.release,View.mayRun,queue]
  have released := sound.release ordered
  rw [same]
  exact { released with
    parsed := fun _ => ⟨queue,rfl,by simp [View.release,View.mayRun,queue]⟩
    unparsed := nofun }

theorem Async.alone {el : Element} (isAsync : el.Async) : ¬el.Blocking ∧ ¬el.Deferred := by
  constructor
  · rintro ⟨-,wrong⟩
    rw [isAsync.2] at wrong
    cases wrong
  · rintro ⟨-,wrong⟩
    rw [isAsync.2] at wrong
    cases wrong

theorem put (sound : Sound recs [rec] v) (alone : ¬rec.Blocking ∧ ¬rec.Deferred) :
    (∃ past,PageScripts.blocking recs = past ++ PageScripts.blocking [] ++ v.parserQueue ∧
      ∀ rec ∈ past,rec ∈ v.finished) ∧
    (∃ past,PageScripts.deferred recs = past ++ PageScripts.deferred [] ++ v.deferring ++ v.deferQueue ∧
      ∀ rec ∈ past,rec ∈ v.finished) ∧ (∀ run ∈ v.runs,∀ other ∈ recs,other.Blocking → other.seq < run.seq →
      other ∈ v.finished ∨ other ∈ []) := by
  have noBlocking : PageScripts.blocking [rec] = PageScripts.blocking [] := by
    simp [PageScripts.blocking,alone.1]
  have noDeferred : PageScripts.deferred [rec] = PageScripts.deferred [] := by
    simp [PageScripts.deferred,alone.2]
  refine ⟨noBlocking ▸ sound.blocking,noDeferred ▸ sound.deferred,?_⟩
  intro run member other known isBlocking before
  refine .inl ((sound.cleared run member other known isBlocking before).resolve_right ?_)
  intro held
  exact alone.1 (List.mem_singleton.mp held ▸ isBlocking)

theorem wait (sound : Sound recs [rec] v) (isAsync : rec.Async) (unparsed : v.parsingFinished = false) :
    Sound recs [] { v with asyncWaiting := v.asyncWaiting ++ [rec] } := by
  obtain ⟨blocking,deferred,cleared⟩ := sound.put (Async.alone isAsync)
  exact { sound with
    places := by
      intro other
      have places := sound.places other
      simp only [View.live,List.count_append,List.count_cons,List.count_nil] at places ⊢
      omega
    blocking := blocking
    deferred := deferred
    cleared := cleared
    parsed := fun parsed => by rw [unparsed] at parsed; cases parsed
    unparsed := fun _ => ⟨rfl,(sound.unparsed unparsed).2⟩
    done := fun done => ⟨(sound.done done).1,(sound.done done).2.1,rfl⟩
    asyncs := by
      intro other member
      simp only [List.mem_append,List.mem_singleton] at member
      rcases member with ((waiting | rfl) | fetching) | run
      · exact sound.asyncs other (by simp [waiting])
      · exact isAsync
      · exact sound.asyncs other (by simp [fetching])
      · exact sound.asyncs other (by simp [run]) }

theorem evaluate (sound : Sound recs [rec] v) (isAsync : rec.Async) :
    Sound recs [] { v with evaluating := v.evaluating ++ [rec],started := rec :: v.started } := by
  obtain ⟨blocking,deferred,cleared⟩ := sound.put (Async.alone isAsync)
  exact { sound with
    places := by
      intro other
      have places := sound.places other
      simp only [View.live,List.count_append,List.count_cons,List.count_nil] at places ⊢
      omega
    begun := by
      intro other
      have begun := sound.begun other
      simp only [List.count_append,List.count_cons,List.count_nil] at begun ⊢
      omega
    blocking := blocking
    deferred := deferred
    cleared := cleared
    parsed := fun parsed => ⟨(sound.parsed parsed).1,rfl,(sound.parsed parsed).2.2⟩
    unparsed := fun unparsed => ⟨rfl,(sound.unparsed unparsed).2⟩
    done := fun done => ⟨(sound.done done).1,(sound.done done).2.1,rfl⟩ }

theorem pick {v' : View} (sound : Sound recs [] v) (alone : ¬rec.Blocking ∧ ¬rec.Deferred)
    (live : ∀ other,v.live.count other = [rec].count other + v'.live.count other)
    (same : v' = { v with states := v'.states,fetching := v'.fetching,runs := v'.runs,errors := v'.errors })
    (states : ∀ seq,v'.states seq = .pending → v.states seq = .pending)
    (fetching : ∀ other ∈ v'.fetching,other ∈ v.fetching) (runs : ∀ other ∈ v'.runs,other ∈ v.runs)
    (errors : ∀ other ∈ v'.errors,other ∈ v.errors) : Sound recs [rec] v' := by
  have noBlocking : PageScripts.blocking [rec] = PageScripts.blocking [] := by
    simp [PageScripts.blocking,alone.1]
  have noDeferred : PageScripts.deferred [rec] = PageScripts.deferred [] := by
    simp [PageScripts.deferred,alone.2]
  have places : ∀ other,[rec].count other + v'.live.count other + v.finished.count other =
      recs.count other := by
    intro other
    have places := sound.places other
    rw [live other,List.count_nil,Nat.zero_add] at places
    exact places
  rw [same] at places ⊢
  exact { sound with
    places := places
    blocking := noBlocking ▸ sound.blocking
    deferred := noDeferred ▸ sound.deferred
    parsed := noBlocking ▸ sound.parsed
    unparsed := noDeferred ▸ sound.unparsed
    done := noDeferred ▸ sound.done
    asyncs := by
      intro other member
      refine sound.asyncs other ?_
      simp only [List.mem_append] at member ⊢
      exact member.imp (Or.imp_right (fetching other)) (runs other)
    broken := fun other member => sound.broken other (errors other member)
    cleared := fun run member other known isBlocking before =>
      .inl ((sound.cleared run (runs run member) other known isBlocking before).resolve_right nofun)
    fetched := fun other member classic pending => sound.fetched other member classic (states _ pending) }

theorem fetchedInOrder (rec : Record) (inOrder : List Record) (sound : Sound recs [] v) {state : FetchState}
    (isOver : state ≠ .pending) (kept : ∀ other ∈ v.inOrder,other ≠ rec → other ∈ inOrder)
    (known : ∀ other ∈ inOrder,other ∈ v.inOrder) :
    Sound recs [] { v with inOrder := inOrder,states := Function.update v.states rec.seq state } :=
  { sound with
    inOrder := fun other member => sound.inOrder other (known other member)
    fetched := by
      intro other member classic pending
      change Function.update v.states rec.seq state other.seq = .pending at pending
      by_cases same : other.seq = rec.seq
      · rw [same,Function.update_self] at pending
        exact absurd pending isOver
      · rw [Function.update_of_ne same] at pending
        refine kept other (sound.fetched other member classic pending) ?_
        rintro rfl
        exact same rfl }

theorem doneDeferred (sound : Sound recs [] v) (only : v.deferring = [rec]) :
    Sound recs [] { v with deferring := [],deferRunning := false,finished := rec :: v.finished } :=
  { sound with
    places := by
      intro other
      have places := sound.places other
      simp only [View.live,only,List.count_append,List.count_cons,List.count_nil] at places ⊢
      omega
    begun := by
      intro other
      have begun := sound.begun other
      simp only [only,List.count_cons,List.count_nil] at begun ⊢
      omega
    blocking := by
      obtain ⟨past,split,isOver⟩ := sound.blocking
      exact ⟨past,split,fun other member => List.mem_cons_of_mem _ (isOver other member)⟩
    deferred := by
      obtain ⟨past,split,isOver⟩ := sound.deferred
      refine ⟨past ++ [rec],?_,?_⟩
      · rw [split,only]
        simp [PageScripts.deferred]
      · intro other member
        rcases List.mem_append.mp member with early | now
        · exact List.mem_cons_of_mem _ (isOver other early)
        · exact List.mem_singleton.mp now ▸ List.mem_cons_self
    unparsed := fun unparsed => ⟨rfl,rfl,(sound.unparsed unparsed).2.2⟩
    running := by simp
    single := by simp
    done := fun done => ⟨(sound.done done).1,rfl,rfl⟩
    cleared := fun run member other known isBlocking before =>
      (sound.cleared run member other known isBlocking before).imp_left (List.mem_cons_of_mem _) }

theorem doneAsync (sound : Sound recs [] v) {evaluating : List Record}
    (count : ∀ other,v.evaluating.count other = [rec].count other + evaluating.count other) :
    Sound recs [] { v with evaluating := evaluating,finished := rec :: v.finished } :=
  { sound with
    places := by
      intro other
      have places := sound.places other
      have moved := count other
      simp only [View.live,List.count_append,List.count_cons,List.count_nil] at places moved ⊢
      omega
    begun := by
      intro other
      have begun := sound.begun other
      have moved := count other
      simp only [List.count_cons,List.count_nil] at begun moved ⊢
      omega
    blocking := by
      obtain ⟨past,split,isOver⟩ := sound.blocking
      exact ⟨past,split,fun other member => List.mem_cons_of_mem _ (isOver other member)⟩
    deferred := by
      obtain ⟨past,split,isOver⟩ := sound.deferred
      exact ⟨past,split,fun other member => List.mem_cons_of_mem _ (isOver other member)⟩
    cleared := fun run member other known isBlocking before =>
      (sound.cleared run member other known isBlocking before).imp_left (List.mem_cons_of_mem _) }

theorem blocking_over (sound : Sound recs [] v) (parsed : v.parsingFinished = true)
    (known : rec ∈ recs) (isBlocking : rec.Blocking) : rec ∈ v.finished := by
  obtain ⟨past,split,isOver⟩ := sound.blocking
  have member : rec ∈ PageScripts.blocking recs := mem_blocking.mpr ⟨known,isBlocking⟩
  rw [split,(sound.parsed parsed).1] at member
  simp only [PageScripts.blocking,List.filter_nil,List.append_nil] at member
  exact isOver rec member

theorem deferred_over (sound : Sound recs [] v) (done : v.deferredDone = true)
    (known : rec ∈ recs) (isDeferred : rec.Deferred) : rec ∈ v.finished := by
  obtain ⟨past,split,isOver⟩ := sound.deferred
  have member : rec ∈ PageScripts.deferred recs := mem_deferred.mpr ⟨known,isDeferred⟩
  rw [split,(sound.done done).1,(sound.done done).2.1] at member
  simp only [PageScripts.deferred,List.filter_nil,List.append_nil] at member
  exact isOver rec member

theorem before_blocking (sound : Sound recs [rec] v) (ordered : Ordered recs) (isBlocking : rec.Blocking)
    {other : Record} (known : other ∈ recs) (alsoBlocking : other.Blocking)
    (before : other.seq < rec.seq) : other ∈ v.finished := by
  obtain ⟨past,split,isOver⟩ := sound.blocking
  have member : other ∈ PageScripts.blocking recs := mem_blocking.mpr ⟨known,alsoBlocking⟩
  have sorted : (PageScripts.blocking recs).Pairwise fun a b => a.seq < b.seq := ordered.filter _
  rw [split,blocking_singleton isBlocking,List.append_assoc] at member sorted
  rcases List.mem_append.mp member with early | late
  · exact isOver other early
  · rcases List.mem_cons.mp late with rfl | later
    · exact absurd before (Nat.lt_irrefl _)
    · have above := (List.pairwise_cons.mp (List.pairwise_append.mp sorted).2.1).1 other later
      omega

theorem before_deferred {past rest : List Record} (ordered : Ordered recs)
    (split : PageScripts.deferred recs = past ++ rec :: rest)
    {other : Record} (known : other ∈ recs) (isDeferred : other.Deferred)
    (before : other.seq < rec.seq) : other ∈ past := by
  have member : other ∈ PageScripts.deferred recs := mem_deferred.mpr ⟨known,isDeferred⟩
  have sorted : (PageScripts.deferred recs).Pairwise fun a b => a.seq < b.seq := ordered.filter _
  rw [split] at member sorted
  rcases List.mem_append.mp member with early | late
  · exact early
  · rcases List.mem_cons.mp late with rfl | later
    · exact absurd before (Nat.lt_irrefl _)
    · have above := (List.pairwise_cons.mp (List.pairwise_append.mp sorted).2.1).1 other later
      omega

section meeting

variable {met : List Record} {states : Nat → FetchState}

theorem start (states : Nat → FetchState) : Sound [] [] ⟨states,[],[],[],[],[],[],[],[],[],false,false,false,[],[]⟩ where
  places _ := rfl
  begun _ := rfl
  blocking := ⟨[],rfl,nofun⟩
  deferred := ⟨[],rfl,nofun⟩
  parsed := nofun
  unparsed _ := ⟨rfl,rfl,rfl⟩
  running := by simp
  single := Nat.zero_le _
  done := nofun
  asyncs := nofun
  broken := nofun
  cleared := nofun
  fetched := nofun
  inOrder := nofun

theorem meet (sound : Sound met [] v) (ordered : Ordered (met ++ [rec])) (alone : ¬rec.Blocking ∧ ¬rec.Deferred)
    (same : ∀ seq,seq ≠ rec.seq → states seq = v.states seq) :
    Sound (met ++ [rec]) [rec] { v with states := states } := by
  have noBlocking : PageScripts.blocking [rec] = [] := by simp [PageScripts.blocking,alone.1]
  have noDeferred : PageScripts.deferred [rec] = [] := by simp [PageScripts.deferred,alone.2]
  have blockingAll : PageScripts.blocking (met ++ [rec]) = PageScripts.blocking met := by
    simp [PageScripts.blocking,alone.1]
  have deferredAll : PageScripts.deferred (met ++ [rec]) = PageScripts.deferred met := by
    simp [PageScripts.deferred,alone.2]
  exact { sound with
    places := by
      intro other
      have places := sound.places other
      simp only [View.live,List.count_append,List.count_cons,List.count_nil] at places ⊢
      omega
    blocking := by
      rw [noBlocking,blockingAll]
      exact sound.blocking
    deferred := by
      rw [noDeferred,deferredAll]
      exact sound.deferred
    parsed := fun parsed => ⟨(sound.parsed parsed).1,noBlocking,(sound.parsed parsed).2.2⟩
    unparsed := fun unparsed => ⟨noDeferred,(sound.unparsed unparsed).2⟩
    done := fun done => ⟨(sound.done done).1,(sound.done done).2.1,noDeferred⟩
    cleared := by
      intro run member other known isBlocking before
      rcases List.mem_append.mp known with earlier | now
      · exact .inl ((sound.cleared run member other earlier isBlocking before).resolve_right nofun)
      · exact absurd (List.mem_singleton.mp now ▸ isBlocking) alone.1
    fetched := by
      intro other member classic pending
      have earlier : other ∈ met := by
        rcases List.mem_append.mp member with parser | deferred
        · exact (sound.parser_blocking parser).1
        · exact (sound.defer_deferred (List.mem_append_right _ deferred)).1
      have before := (List.pairwise_append.mp ordered).2.2 other earlier rec List.mem_cons_self
      exact sound.fetched other member classic ((same _ (Nat.ne_of_lt before)) ▸ pending)
    inOrder := fun other member => List.mem_append_left _ (sound.inOrder other member) }

theorem fetch (sound : Sound recs [rec] v) (isAsync : rec.Async) :
    Sound recs [] { v with fetching := v.fetching ++ [rec] } := by
  obtain ⟨blocking,deferred,cleared⟩ := sound.put (Async.alone isAsync)
  exact { sound with
    places := by
      intro other
      have places := sound.places other
      simp only [View.live,List.count_append,List.count_cons,List.count_nil] at places ⊢
      omega
    blocking := blocking
    deferred := deferred
    cleared := cleared
    parsed := fun parsed => ⟨(sound.parsed parsed).1,rfl,(sound.parsed parsed).2.2⟩
    unparsed := fun unparsed => ⟨rfl,(sound.unparsed unparsed).2⟩
    done := fun done => ⟨(sound.done done).1,(sound.done done).2.1,rfl⟩
    asyncs := by
      intro other member
      simp only [List.mem_append,List.mem_singleton] at member
      rcases member with (waiting | fetching | rfl) | run
      · exact sound.asyncs other (by simp [waiting])
      · exact sound.asyncs other (by simp [fetching])
      · exact isAsync
      · exact sound.asyncs other (by simp [run]) }

theorem reject (sound : Sound recs [rec] v) (broken : rec.broken = true) :
    Sound recs [] { v with errors := v.errors ++ [rec] } := by
  obtain ⟨blocking,deferred,cleared⟩ := sound.put
    ⟨fun wrong => by simp [Element.Blocking,broken] at wrong,
      fun wrong => by simp [Element.Deferred,broken] at wrong⟩
  exact { sound with
    places := by
      intro other
      have places := sound.places other
      simp only [View.live,List.count_append,List.count_cons,List.count_nil] at places ⊢
      omega
    blocking := blocking
    deferred := deferred
    cleared := cleared
    parsed := fun parsed => ⟨(sound.parsed parsed).1,rfl,(sound.parsed parsed).2.2⟩
    unparsed := fun unparsed => ⟨rfl,(sound.unparsed unparsed).2⟩
    done := fun done => ⟨(sound.done done).1,(sound.done done).2.1,rfl⟩
    broken := by
      intro other member
      rcases List.mem_append.mp member with earlier | now
      · exact sound.broken other earlier
      · exact List.mem_singleton.mp now ▸ broken }

theorem enqueue (states : Nat → FetchState) (inOrder : List Record) (sound : Sound met [] v) (ordered : Ordered (met ++ [rec])) {parser deferred : List Record}
    (joins : rec.Blocking ∧ parser = [rec] ∧ deferred = [] ∨ rec.Deferred ∧ parser = [] ∧ deferred = [rec])
    (unparsed : v.parsingFinished = false) (noRuns : v.runs = [])
    (same : ∀ seq,seq ≠ rec.seq → states seq = v.states seq)
    (kept : ∀ other ∈ v.inOrder,other ∈ inOrder) (known : ∀ other ∈ inOrder,other ∈ v.inOrder ∨ other = rec)
    (pending : rec.kind = .classic → states rec.seq = .pending → rec ∈ inOrder) :
    Sound (met ++ [rec]) [] { v with
      states := states
      inOrder := inOrder
      parserQueue := v.parserQueue ++ parser
      deferQueue := v.deferQueue ++ deferred } := by
  have parserAll : PageScripts.blocking (met ++ [rec]) = PageScripts.blocking met ++ parser := by
    rcases joins with ⟨isBlocking,rfl,rfl⟩ | ⟨isDeferred,rfl,rfl⟩
    · simp [PageScripts.blocking,isBlocking]
    · have not : ¬rec.Blocking := fun wrong => Blocking.not_deferred wrong isDeferred
      simp [PageScripts.blocking,not]
  have deferredAll : PageScripts.deferred (met ++ [rec]) = PageScripts.deferred met ++ deferred := by
    rcases joins with ⟨isBlocking,rfl,rfl⟩ | ⟨isDeferred,rfl,rfl⟩
    · simp [PageScripts.deferred,Blocking.not_deferred isBlocking]
    · simp [PageScripts.deferred,isDeferred]
  have one : ∀ other,parser.count other + deferred.count other = [rec].count other := by
    intro other
    rcases joins with ⟨-,rfl,rfl⟩ | ⟨-,rfl,rfl⟩ <;> simp
  have joined : ∀ other ∈ parser ++ deferred,other = rec := by
    rcases joins with ⟨-,rfl,rfl⟩ | ⟨-,rfl,rfl⟩ <;> simp
  exact { sound with
    places := by
      intro other
      have places := sound.places other
      have now := one other
      simp only [View.live,List.count_append] at places ⊢
      omega
    blocking := by
      obtain ⟨past,split,isOver⟩ := sound.blocking
      refine ⟨past,?_,isOver⟩
      rw [parserAll,split,List.append_assoc]
    deferred := by
      obtain ⟨past,split,isOver⟩ := sound.deferred
      refine ⟨past,?_,isOver⟩
      rw [deferredAll,split,List.append_assoc]
    parsed := fun parsed => by rw [unparsed] at parsed; cases parsed
    done := fun done => by rw [(sound.unparsed unparsed).2.2] at done; cases done
    cleared := fun run member => by rw [noRuns] at member; cases member
    fetched := by
      intro other member classic isPending
      have place : other ∈ v.parserQueue ++ v.deferQueue ∨ other = rec := by
        simp only [List.mem_append] at member joined ⊢
        rcases member with (old | new) | (old | new)
        · exact .inl (.inl old)
        · exact .inr (joined other (.inl new))
        · exact .inl (.inr old)
        · exact .inr (joined other (.inr new))
      rcases place with old | rfl
      · have earlier : other ∈ met := by
          rcases List.mem_append.mp old with parser | deferred
          · exact (sound.parser_blocking parser).1
          · exact (sound.defer_deferred (List.mem_append_right _ deferred)).1
        have before := (List.pairwise_append.mp ordered).2.2 other earlier rec List.mem_cons_self
        exact kept other (sound.fetched other old classic ((same _ (Nat.ne_of_lt before)) ▸ isPending))
      · exact pending classic isPending
    inOrder := by
      intro other member
      rcases known other member with old | rfl
      · exact List.mem_append_left _ (sound.inOrder other old)
      · exact List.mem_append_right _ List.mem_cons_self }

end meeting

end Sound

end Sharko.Script.PageScripts
