import Mathlib.Data.List.Nodup
import Sharko.Script.ScriptPlaces

/-! In which order the scripts of a document run, and when `DOMContentLoaded` and `load` are
fired. -/

namespace Sharko.Script.PageScripts

open Library

def Noted (due : Entry → List Entry → Prop) : List Entry → Prop
  | [] => True
  | entry :: log => due entry log ∧ Noted due log

/-- No async script of the document is outstanding, and none that was inserted. -/
def Idle (recs : List Record) (log : List Entry) : Prop :=
  (∀ rec ∈ recs,rec.Async → rec ∈ finished log) ∧
    ∀ id,(∃ counted,.inserted id counted ∈ log) → ∃ executed,.finished (.dynamic id) executed ∈ log

def Due (recs : List Record) : Entry → List Entry → Prop
  | .started (.parser rec),log =>
    rec ∉ started log ∧
    (rec.Blocking ∨ rec.Async → ∀ other ∈ recs,other.Blocking → other.seq < rec.seq → other ∈ finished log) ∧
    (rec.Deferred → ∀ other ∈ recs,other.Blocking ∨ other.Deferred ∧ other.seq < rec.seq →
      other ∈ finished log)
  | .finished (.parser rec) _,log => rec ∈ started log ∧ rec ∉ finished log
  | .domContentLoaded,log =>
    .domContentLoaded ∉ log ∧ ∀ rec ∈ recs,rec.Blocking ∨ rec.Deferred → rec ∈ finished log
  | .loadQueued,log => .loadQueued ∉ log ∧ .domContentLoaded ∈ log ∧ Idle recs log
  | .load,log => .load ∉ log ∧ .loadQueued ∈ log
  | _,_ => True

def Document.Quiescent (s : Document) : Prop :=
  s.timers = [] ∧ s.tasks = [] ∧ s.fetches = [] ∧ s.modules = []

structure Orderly (recs : List Record) (s : Document) : Prop where
  noted : Noted (Due recs) s.log
  complete : s.Quiescent → (∀ rec ∈ recs,rec ∈ finished s.log) ∧ .domContentLoaded ∈ s.log

def Fetch.outstanding : Fetch → Bool
  | .dynamic _ counted => counted
  | _ => false

def Module.outstanding : Module → Bool
  | .dynamic _ counted => counted
  | _ => false

/-- `asyncPending` counts what delays `load`; `extra` is what has come back and is not yet taken
off it. -/
structure Counting (extra : Int) (s : Document) : Prop where
  pending : s.asyncPending = s.asyncWaiting.length + s.view.fetching.length + s.view.runs.length +
    s.view.evaluating.length + s.fetches.countP Fetch.outstanding +
    s.modules.countP Module.outstanding + s.orderedDynamic.length + extra
  counted : s.loadQueued = false → ∀ id counted,.inserted id counted ∈ s.log → counted = true
  accounted : ∀ id counted,.inserted id counted ∈ s.log →
    (∃ executed,.finished (.dynamic id) executed ∈ s.log) ∨ (∃ state,(id,state) ∈ s.orderedDynamic) ∨
      .dynamic id counted ∈ s.fetches ∨ .dynamic id counted ∈ s.modules

structure Loads (s : Document) : Prop where
  dcl : .domContentLoaded ∈ s.log ↔ s.dclFired = true
  queued : .loadQueued ∈ s.log ↔ s.loadQueued = true
  first : s.dclFired = true → s.deferredDone = true
  once : s.tasks.count .load + s.log.count .load ≤ 1
  after : .load ∈ s.tasks ∨ .load ∈ s.log → s.loadQueued = true

structure Good (recs hand : List Record) (extra : Int) (s : Document) : Prop where
  noted : Noted (Due recs) s.log
  sound : Sound recs hand s.view
  counting : Counting extra s
  loads : Loads s

namespace Document

variable {page : Page} {s : Document} {recs hand : List Record} {extra : Int}

theorem insert_counting (counting : Counting extra s) (d : Dynamic) : Counting extra (s.insert d) := by
  obtain ⟨pending,counted,accounted⟩ := counting
  constructor
  · have same : (s.insert d).view = s.view := view_insert s d
    rw [same]
    cases d <;> cases queued : s.loadQueued <;>
      simp [insert,queued,Fetch.outstanding,Module.outstanding] <;> omega
  · intro unqueued
    have before : s.loadQueued = false := by cases d <;> exact unqueued
    intro id isCounted member
    have now : Entry.inserted id isCounted = .inserted s.nextDynamic (!s.loadQueued) ∨
        .inserted id isCounted ∈ s.log := by
      cases d <;> exact List.mem_cons.mp member
    rcases now with fresh | old
    · cases fresh
      simp [before]
    · exact counted before id isCounted old
  · intro id isCounted member
    have now : Entry.inserted id isCounted = .inserted s.nextDynamic (!s.loadQueued) ∨
        .inserted id isCounted ∈ s.log := by
      cases d <;> exact List.mem_cons.mp member
    rcases now with fresh | old
    · cases fresh
      cases d <;> simp [insert]
    · rcases accounted id isCounted old with ⟨executed,isOver⟩ | ⟨state,ordered⟩ | fetched | module
      · exact .inl ⟨executed,by cases d <;> simp [insert,isOver]⟩
      · exact .inr (.inl ⟨state,by cases d <;> simp [insert,ordered]⟩)
      · exact .inr (.inr (.inl (by cases d <;> simp [insert,fetched])))
      · exact .inr (.inr (.inr (by cases d <;> simp [insert,module])))

theorem insert_loads (loads : Loads s) (d : Dynamic) : Loads (s.insert d) := by
  obtain ⟨dcl,queued,first,once,after⟩ := loads
  cases d <;> exact ⟨by simpa [insert] using dcl,by simpa [insert] using queued,first,
    by simpa [insert] using once,by simpa [insert] using after⟩

theorem insert_good (good : Good recs hand extra s) (d : Dynamic) : Good recs hand extra (s.insert d) where
  noted := by cases d <;> exact ⟨trivial,good.noted⟩
  sound := by
    rw [view_insert]
    exact good.sound
  counting := insert_counting good.counting d
  loads := insert_loads good.loads d

theorem insertAll_good (good : Good recs hand extra s) (ds : List Dynamic) :
    Good recs hand extra (s.insertAll ds) := by
  induction ds generalizing s with
  | nil => exact good
  | cons d ds ih => exact ih (insert_good good d)

def Cleared (recs : List Record) (s : Document) (rec : Record) : Prop :=
  (rec.Blocking ∨ rec.Async → ∀ other ∈ recs,other.Blocking → other.seq < rec.seq →
    other ∈ finished s.log) ∧
  (rec.Deferred → ∀ other ∈ recs,other.Blocking ∨ other.Deferred ∧ other.seq < rec.seq →
    other ∈ finished s.log)

theorem exec_good {rec : Record} (good : Good recs [rec] extra s) (ordered : Ordered recs)
    (cleared : Cleared recs s rec) (executed : Bool) :
    Good recs [] extra (s.exec page (.parser rec) executed) := by
  have once : recs.count rec ≤ 1 := List.nodup_iff_count_le_one.mp ordered.nodup rec
  have places := good.sound.places rec
  have begun := good.sound.begun rec
  simp only [View.live,List.count_append,List.count_cons_self,List.count_nil] at places
  have unstarted : rec ∉ started s.log := List.count_eq_zero.mp (by
    change s.view.started.count rec = 0
    omega)
  have unfinished : rec ∉ finished s.log := List.count_eq_zero.mp (by
    change s.view.finished.count rec = 0
    omega)
  refine insertAll_good (s := (s.note (.started (.parser rec))).note (.finished (.parser rec) executed))
    ⟨⟨⟨List.mem_cons_self,unfinished⟩,⟨unstarted,cleared⟩,good.noted⟩,
    good.sound.finish,?_,?_⟩ _
  · obtain ⟨pending,counted,accounted⟩ := good.counting
    refine ⟨pending,?_,?_⟩
    · simpa [note] using counted
    · simpa [note] using accounted
  · obtain ⟨dcl,queued,first,once,after⟩ := good.loads
    exact ⟨by simpa [note] using dcl,by simpa [note] using queued,first,by simpa [note] using once,
      by simpa [note] using after⟩

theorem Idle_of_pending (good : Good recs [] 0 s) (none : ¬0 < s.asyncPending)
    (unqueued : s.loadQueued = false) : Idle recs s.log := by
  obtain ⟨pending,counted,accounted⟩ := good.counting
  constructor
  · intro rec member isAsync
    have places := good.sound.places rec
    have present : 0 < recs.count rec := List.count_pos_iff.mpr member
    have notBlocking : s.view.parserQueue.count rec = 0 := List.count_eq_zero.mpr fun wrong =>
      (Sound.Async.alone isAsync).1 (good.sound.parser_blocking wrong).2
    have notDeferred : (s.view.deferring ++ s.view.deferQueue).count rec = 0 :=
      List.count_eq_zero.mpr fun wrong =>
        (Sound.Async.alone isAsync).2 (good.sound.defer_deferred wrong).2
    have notBroken : s.view.errors.count rec = 0 := List.count_eq_zero.mpr fun wrong => by
      have broken := good.sound.broken rec wrong
      rw [isAsync.1] at broken
      cases broken
    have waiting := List.count_le_length (a := rec) (l := s.view.asyncWaiting)
    have fetching := List.count_le_length (a := rec) (l := s.view.fetching)
    have runs := List.count_le_length (a := rec) (l := s.view.runs)
    have evaluating := List.count_le_length (a := rec) (l := s.view.evaluating)
    have same : s.view.asyncWaiting = s.asyncWaiting := rfl
    simp only [View.live,List.count_append,List.count_nil,same] at places notDeferred waiting
    have isOver : 0 < s.view.finished.count rec := by omega
    exact List.count_pos_iff.mp isOver
  · rintro id ⟨isCounted,inserted⟩
    obtain rfl := counted unqueued id isCounted inserted
    rcases accounted id true inserted with isOver | ⟨state,ordered⟩ | fetched | module
    · exact isOver
    · have some := List.length_pos_of_mem ordered
      omega
    · have some : 0 < s.fetches.countP Fetch.outstanding := List.countP_pos_iff.mpr ⟨_,fetched,rfl⟩
      omega
    · have some : 0 < s.modules.countP Module.outstanding := List.countP_pos_iff.mpr ⟨_,module,rfl⟩
      omega

theorem view_queued :
    { s with loadQueued := true,tasks := s.tasks ++ [Task.load],log := Entry.loadQueued :: s.log }.view =
      s.view := by
  simp [view,started,finished,List.filterMap_append,List.filterMap_cons,Task.runRecord,Task.errorRecord]

theorem maybeFireLoad_good (good : Good recs [] 0 s) : Good recs [] 0 (s.maybeFireLoad page) := by
  unfold maybeFireLoad
  by_cases stays : (s.loadQueued || !s.dclFired) = true
  · rwa [if_pos stays]
  rw [if_neg stays]
  obtain ⟨unqueued,fired⟩ : s.loadQueued = false ∧ s.dclFired = true := by simpa using stays
  by_cases pending : 0 < s.asyncPending
  · rwa [if_pos pending]
  rw [if_neg pending]
  split
  · exact good
  split
  · exact good
  obtain ⟨dcl,queued,first,once,after⟩ := good.loads
  have absent : Entry.loadQueued ∉ s.log := fun member => by simp [unqueued] at queued; exact queued member
  have noLoad : ¬(Task.load ∈ s.tasks ∨ Entry.load ∈ s.log) := fun wrong => by
    simp [unqueued] at after
    tauto
  refine ⟨⟨⟨absent,dcl.mpr fired,Idle_of_pending good pending unqueued⟩,good.noted⟩,?_,?_,?_⟩
  · rw [view_queued]
    exact good.sound
  · obtain ⟨pending,counted,accounted⟩ := good.counting
    exact ⟨by rw [view_queued]; exact pending,nofun,by simpa using accounted⟩
  · refine ⟨by simpa using dcl,by simp,first,?_,by simp⟩
    have noTask : s.tasks.count .load = 0 := List.count_eq_zero.mpr fun wrong => noLoad (.inl wrong)
    have noEntry : s.log.count .load = 0 := List.count_eq_zero.mpr fun wrong => noLoad (.inr wrong)
    simp [noTask,noEntry]

theorem moved {s' : Document} {hand' : List Record} {extra' : Int} (good : Good recs hand extra s)
    (log : s'.log = s.log) (counting : Counting extra' s') (sound : Sound recs hand' s'.view)
    (tasks : s'.tasks.count .load = s.tasks.count .load) (dclFired : s'.dclFired = s.dclFired)
    (loadQueued : s'.loadQueued = s.loadQueued)
    (done : s.deferredDone = true → s'.deferredDone = true) : Good recs hand' extra' s' where
  noted := log ▸ good.noted
  sound := sound
  counting := counting
  loads := by
    obtain ⟨dcl,queued,first,once,after⟩ := good.loads
    refine ⟨by rw [log,dclFired]; exact dcl,by rw [log,loadQueued]; exact queued,?_,?_,?_⟩
    · exact fun fired => done (first (dclFired ▸ fired))
    · rw [log,tasks]
      exact once
    · rw [log,loadQueued,← List.count_pos_iff,tasks,List.count_pos_iff]
      exact after

theorem fireDOMContentLoaded_good (good : Good recs [] 0 s) (parsed : s.parsingFinished = true)
    (done : s.deferredDone = true) : Good recs [] 0 (s.fireDOMContentLoaded page) := by
  unfold fireDOMContentLoaded
  by_cases fired : s.dclFired = true
  · rwa [if_pos fired]
  rw [if_neg fired]
  obtain ⟨dcl,queued,first,once,after⟩ := good.loads
  have unfired : Entry.domContentLoaded ∉ s.log := fun member => fired (dcl.mp member)
  have noted : Noted (Due recs) (.domContentLoaded :: s.log) := by
    refine ⟨⟨unfired,?_⟩,good.noted⟩
    rintro rec known (isBlocking | isDeferred)
    · exact good.sound.blocking_over parsed known isBlocking
    · exact good.sound.deferred_over done known isDeferred
  have counting : Counting 0 { s with dclFired := true,log := Entry.domContentLoaded :: s.log } := by
    obtain ⟨pending,counted,accounted⟩ := good.counting
    exact ⟨pending,by simpa using counted,by simpa using accounted⟩
  have loads : Loads { s with dclFired := true,log := Entry.domContentLoaded :: s.log } :=
    ⟨by simp,by simpa using queued,fun _ => done,by simpa using once,by simpa using after⟩
  have next : Good recs [] 0 { s with dclFired := true,log := Entry.domContentLoaded :: s.log } :=
    ⟨noted,good.sound,counting,loads⟩
  exact maybeFireLoad_good (insertAll_good next _)

theorem unstarted {rec : Record} (good : Good recs hand extra s) (ordered : Ordered recs)
    (waits : 0 < hand.count rec + s.view.parserQueue.count rec + s.view.deferQueue.count rec +
      s.view.asyncWaiting.count rec + s.view.fetching.count rec + s.view.runs.count rec +
      s.view.errors.count rec) : rec ∉ started s.log ∧ rec ∉ finished s.log := by
  have once : recs.count rec ≤ 1 := List.nodup_iff_count_le_one.mp ordered.nodup rec
  have places := good.sound.places rec
  have begun := good.sound.begun rec
  simp only [View.live,List.count_append] at places
  constructor
  · have none : s.view.started.count rec = 0 := by omega
    exact List.count_eq_zero.mp none
  · have none : s.view.finished.count rec = 0 := by omega
    exact List.count_eq_zero.mp none

theorem runDeferred_good (good : Good recs [] 0 s) (ordered : Ordered recs)
    (parsed : s.parsingFinished = true) : Good recs [] 0 (s.runDeferred page) := by
  unfold runDeferred
  by_cases stays : (s.deferredDone || s.deferRunning) = true
  · rwa [if_pos stays]
  rw [if_neg stays]
  obtain ⟨undone,still⟩ : s.deferredDone = false ∧ s.deferRunning = false := by simpa using stays
  split
  · rename_i queue
    exact fireDOMContentLoaded_good
      (moved good rfl { good.counting with } (good.sound.close queue parsed still) rfl rfl rfl fun _ => rfl)
      parsed rfl
  · rename_i rec rest queue
    have isDeferred : rec.Deferred := (good.sound.defer_deferred
      (List.mem_append_right _ (queue ▸ List.mem_cons_self : rec ∈ s.deferQueue))).2
    have others : ∀ other ∈ recs,other.Blocking ∨ other.Deferred ∧ other.seq < rec.seq →
        other ∈ finished s.log := by
      rintro other known (isBlocking | ⟨alsoDeferred,before⟩)
      · exact good.sound.blocking_over parsed known isBlocking
      · obtain ⟨past,split,isOver⟩ := good.sound.deferred
        have none : s.view.deferring = [] := by
          by_contra some
          rw [show s.deferRunning = true from good.sound.running.mpr some] at still
          cases still
        have head : s.view.deferQueue = rec :: rest := queue
        rw [none,head] at split
        simp only [deferred,List.filter_nil,List.append_nil] at split
        exact isOver other (Sound.before_deferred ordered split known alsoDeferred before)
    have cleared : Cleared recs s rec := by
      refine ⟨?_,fun _ => others⟩
      rintro (isBlocking | isAsync)
      · exact absurd isDeferred (Sound.Blocking.not_deferred isBlocking)
      · exact absurd isDeferred (Sound.Async.alone isAsync).2
    split
    · have waits : 0 < s.view.deferQueue.count rec := by
        have head : s.view.deferQueue = rec :: rest := queue
        rw [head]
        exact List.count_pos_iff.mpr List.mem_cons_self
      have fresh : rec ∉ started s.log := (unstarted good ordered (by omega)).1
      have begun := good.sound.begin queue parsed still
      have counting := good.counting
      have loads := good.loads
      refine ⟨⟨⟨fresh,cleared⟩,good.noted⟩,?_,?_,?_⟩
      · have same : { s with
            deferQueue := rest
            deferRunning := true
            modules := s.modules ++ [Module.deferred rec]
            log := Entry.started (.parser rec) :: s.log }.view = { s.view with
              deferQueue := rest
              deferRunning := true
              deferring := s.view.deferring ++ [rec]
              started := rec :: s.view.started } := by
          simp [view,started,finished,List.filterMap_append,List.filterMap_cons,Module.deferredRecord,
            Module.asyncRecord]
        rw [same]
        exact begun
      · obtain ⟨pending,counted,accounted⟩ := counting
        refine ⟨?_,by simpa using counted,?_⟩
        · simp [view,Module.asyncRecord,Module.outstanding,List.filterMap_cons] at pending ⊢
          omega
        · intro id isCounted member
          have before := accounted id isCounted (by simpa using member)
          simpa using before
      · obtain ⟨dcl,queued,first,once,after⟩ := loads
        exact ⟨by simpa using dcl,by simpa using queued,first,by simpa using once,by simpa using after⟩
    · split
      · exact good
      · have taken := good.sound.take queue parsed still
        refine exec_good (s := { s with deferQueue := rest,timers := s.timers ++ [Timer.runDeferred] })
          ?_ ordered cleared _
        exact moved good rfl { good.counting with } taken rfl rfl rfl id

theorem view_releaseAsync : s.releaseAsync.view = s.view.release := by
  have runs (waiting : List Record) : (waiting.map Task.run).filterMap Task.runRecord = waiting := by
    simp [List.filterMap_map,Function.comp_def,Task.runRecord]
  have errors (waiting : List Record) : (waiting.map Task.run).filterMap Task.errorRecord = [] := by
    simp [List.filterMap_map,Function.comp_def,Task.errorRecord]
  simp only [releaseAsync,view,View.release,List.filterMap_append,runs,errors,List.append_nil]
  rfl

theorem releaseAsync_counting (counting : Counting extra s) : Counting extra s.releaseAsync := by
  obtain ⟨pending,counted,accounted⟩ := counting
  refine ⟨?_,counted,accounted⟩
  have parts := (List.filter_append_perm (fun rec => s.asyncMayRun rec) s.asyncWaiting).length_eq
  rw [List.length_append] at parts
  rw [view_releaseAsync]
  have runs : s.view.release.runs.length =
      s.view.runs.length + (s.asyncWaiting.filter fun rec => s.asyncMayRun rec).length :=
    List.length_append
  rw [runs]
  change s.asyncPending = ((s.asyncWaiting.filter fun rec => !s.asyncMayRun rec).length : Int) +
    s.view.fetching.length + _ + s.view.evaluating.length + s.fetches.countP Fetch.outstanding +
    s.modules.countP Module.outstanding + s.orderedDynamic.length + extra
  omega

theorem releaseAsync_tasks : s.releaseAsync.tasks.count .load = s.tasks.count .load := by
  have none : ((s.asyncWaiting.filter fun rec => s.asyncMayRun rec).map Task.run).count .load = 0 :=
    List.count_eq_zero.mpr (by simp)
  rw [releaseAsync,List.count_append,none,Nat.add_zero]

theorem releaseAsync_good (good : Good recs hand extra s) (ordered : Ordered recs) :
    Good recs hand extra s.releaseAsync :=
  moved good rfl (releaseAsync_counting good.counting)
    (view_releaseAsync ▸ good.sound.release ordered) releaseAsync_tasks rfl rfl id

theorem finishParsing_good (good : Good recs [] 0 s) (ordered : Ordered recs)
    (queue : s.parserQueue = []) : Good recs [] 0 (s.finishParsing page) := by
  unfold finishParsing
  by_cases finished : s.parsingFinished = true
  · rwa [if_pos finished]
  rw [if_neg finished]
  refine runDeferred_good (insertAll_good ?_ _) ordered ?_
  · refine moved good rfl (releaseAsync_counting { good.counting with }) ?_ releaseAsync_tasks rfl rfl id
    rw [view_releaseAsync]
    exact good.sound.parse ordered queue
  · exact congrArg View.parsingFinished (view_insertAll _ _)

theorem pumpParser_good (good : Good recs [] 0 s) (ordered : Ordered recs) :
    Good recs [] 0 (s.pumpParser page) := by
  unfold pumpParser
  split
  · rename_i queue
    exact maybeFireLoad_good (finishParsing_good good ordered queue)
  · rename_i rec rest queue
    split
    · exact good
    have isBlocking : rec.Blocking := (good.sound.parser_blocking
      (queue ▸ List.mem_cons_self : rec ∈ s.parserQueue)).2
    have shifted : Good recs [rec] 0 { s with parserQueue := rest } :=
      moved good rfl { good.counting with } (good.sound.shift queue) rfl rfl rfl id
    have released := releaseAsync_good shifted ordered
    have next : Good recs [rec] 0 { ({ s with parserQueue := rest } : Document).releaseAsync with
        timers := ({ s with parserQueue := rest } : Document).releaseAsync.timers ++ [Timer.pumpParser] } :=
      moved released rfl { released.counting with } released.sound rfl rfl rfl id
    have cleared : Cleared recs s rec := by
      constructor
      · intro _ other known alsoBlocking before
        exact shifted.sound.before_blocking ordered isBlocking known alsoBlocking before
      · exact fun isDeferred => absurd isDeferred (Sound.Blocking.not_deferred isBlocking)
    have classic : rec.kind ≠ .module := by
      intro module
      have placed := isBlocking.2
      simp only [Element.placement,module] at placed
      split at placed <;> cases placed
    dsimp only
    split
    · exact exec_good next ordered cleared _
    · exact exec_good next ordered cleared _

theorem onScriptFetched_good (good : Good recs [] 0 s) (ordered : Ordered recs) (rec : Record) :
    Good recs [] 0 (s.onScriptFetched page rec) := by
  unfold onScriptFetched
  split
  · exact pumpParser_good good ordered
  split
  · rename_i both
    rw [Bool.and_eq_true] at both
    exact runDeferred_good good ordered both.1
  · exact good

theorem runAsync_good {rec : Record} (good : Good recs [rec] 1 s) (ordered : Ordered recs)
    (isAsync : rec.Async) (cleared : Cleared recs s rec) : Good recs [] 0 (s.runAsync page rec) := by
  have fresh : rec ∉ started s.log := (unstarted good ordered (by rw [List.count_singleton_self]; omega)).1
  have counting := good.counting
  have loads := good.loads
  have evaluated := good.sound.evaluate isAsync
  unfold runAsync
  split
  · have next : Good recs [rec] 0 { s with asyncPending := s.asyncPending - 1 } := by
      refine moved good rfl { counting with pending := ?_ } good.sound rfl rfl rfl id
      have pending := counting.pending
      simp only [view] at pending ⊢
      omega
    exact maybeFireLoad_good (exec_good next ordered cleared _)
  · have same : { s with
        modules := s.modules ++ [Module.async rec]
        log := Entry.started (.parser rec) :: s.log }.view = { s.view with
          evaluating := s.view.evaluating ++ [rec]
          started := rec :: s.view.started } := by
      simp [view,started,finished,List.filterMap_append,List.filterMap_cons,Module.deferredRecord,
        Module.asyncRecord]
    refine ⟨⟨⟨fresh,cleared⟩,good.noted⟩,?_,?_,?_⟩
    · rw [same]
      exact evaluated
    · obtain ⟨pending,counted,accounted⟩ := counting
      refine ⟨?_,by simpa using counted,?_⟩
      · simp [view,Module.asyncRecord,Module.outstanding,List.filterMap_cons] at pending ⊢
        omega
      · intro id isCounted member
        have before := accounted id isCounted (by simpa using member)
        simpa using before
    · obtain ⟨dcl,queued,first,once,after⟩ := loads
      exact ⟨by simpa using dcl,by simpa using queued,first,by simpa using once,by simpa using after⟩

theorem cleared_of_async {rec : Record} (isAsync : rec.Async)
    (isOver : ∀ other ∈ recs,other.Blocking → other.seq < rec.seq →
      other ∈ s.view.finished ∨ other ∈ [rec]) : Cleared recs s rec := by
  constructor
  · intro _ other known isBlocking before
    refine (isOver other known isBlocking before).resolve_right ?_
    intro held
    exact (Sound.Async.alone isAsync).1 (List.mem_singleton.mp held ▸ isBlocking)
  · exact fun isDeferred => absurd isDeferred (Sound.Async.alone isAsync).2

theorem runOrWait_good {rec : Record} (good : Good recs [rec] 1 s) (ordered : Ordered recs)
    (isAsync : rec.Async) : Good recs [] 0 (s.runOrWait page rec) := by
  unfold runOrWait
  split
  · rename_i may
    refine runAsync_good good ordered isAsync (cleared_of_async isAsync ?_)
    exact fun other known isBlocking before =>
      good.sound.cleared_of_mayRun ordered may known isBlocking before
  · rename_i must
    have unparsed : s.parsingFinished = false := by
      cases parsed : s.parsingFinished with
      | false => rfl
      | true => simp [asyncMayRun,parsed] at must
    refine moved good rfl { good.counting with pending := ?_ } (good.sound.wait isAsync unparsed)
      rfl rfl rfl id
    have pending := good.counting.pending
    simp only [view,List.length_append,List.length_cons,List.length_nil] at pending ⊢
    omega

theorem settle_dynamic_good (s' : Document) {id : Nat} {extra' : Int} (good : Good recs hand extra s)
    (log : s'.log = s.log) (view : s'.view = s.view)
    (pending : s'.asyncPending = s'.asyncWaiting.length + s'.view.fetching.length +
      s'.view.runs.length + s'.view.evaluating.length + s'.fetches.countP Fetch.outstanding +
      s'.modules.countP Module.outstanding + s'.orderedDynamic.length + extra')
    (ordered : ∀ d ∈ s.orderedDynamic,d.1 ≠ id → d ∈ s'.orderedDynamic)
    (fetches : ∀ other counted,other ≠ id → .dynamic other counted ∈ s.fetches →
      .dynamic other counted ∈ s'.fetches)
    (modules : ∀ other counted,other ≠ id → .dynamic other counted ∈ s.modules →
      .dynamic other counted ∈ s'.modules) (tasks : s'.tasks = s.tasks) (dclFired : s'.dclFired = s.dclFired)
    (loadQueued : s'.loadQueued = s.loadQueued) (done : s'.deferredDone = s.deferredDone)
    (executed : Bool) (inserted : List Dynamic) :
    Good recs hand extra' ((s'.note (.finished (.dynamic id) executed)).insertAll inserted) := by
  refine insertAll_good (s := s'.note (.finished (.dynamic id) executed))
    ⟨⟨trivial,log ▸ good.noted⟩,?_,?_,?_⟩ _
  · have same : (s'.note (.finished (.dynamic id) executed)).view = s.view := view
    rw [same]
    exact good.sound
  · refine ⟨pending,?_,?_⟩
    · simpa [note,log,loadQueued] using good.counting.counted
    · intro other counted inserted
      have before : .inserted other counted ∈ s.log := by simpa [note,log] using inserted
      by_cases now : other = id
      · exact .inl ⟨executed,by simp [note,now]⟩
      rcases good.counting.accounted other counted before with ⟨run,isOver⟩ | ⟨state,waits⟩ | fetched | module
      · exact .inl ⟨run,by simp [note,log,isOver]⟩
      · exact .inr (.inl ⟨state,ordered _ waits now⟩)
      · exact .inr (.inr (.inl (fetches other counted now fetched)))
      · exact .inr (.inr (.inr (modules other counted now module)))
  · obtain ⟨dcl,queued,first,once,after⟩ := good.loads
    refine ⟨?_,?_,?_,?_,?_⟩
    · simpa [note,log,dclFired] using dcl
    · simpa [note,log,loadQueued] using queued
    · simpa [note,dclFired,done] using first
    · simpa [note,log,tasks] using once
    · simpa [note,log,tasks,loadQueued] using after

theorem start_dynamic_good (good : Good recs hand extra s) (id : Nat) :
    Good recs hand extra (s.note (.started (.dynamic id))) where
  noted := ⟨trivial,good.noted⟩
  sound := good.sound
  counting := by
    obtain ⟨pending,counted,accounted⟩ := good.counting
    exact ⟨pending,by simpa [note] using counted,by simpa [note] using accounted⟩
  loads := by
    obtain ⟨dcl,queued,first,once,after⟩ := good.loads
    exact ⟨by simpa [note] using dcl,by simpa [note] using queued,first,by simpa [note] using once,
      by simpa [note] using after⟩

theorem lower_good {e : Int} (good : Good recs hand (e + 1) s) :
    Good recs hand e { s with asyncPending := s.asyncPending - 1 } := by
  refine moved good rfl { good.counting with pending := ?_ } good.sound rfl rfl rfl id
  have pending := good.counting.pending
  simp only [view] at pending ⊢
  omega

theorem release_good (counted : Bool) (good : Good recs [] (if counted then 1 else 0) s) :
    Good recs [] 0 (s.release page counted) := by
  cases counted with
  | false => exact good
  | true => exact maybeFireLoad_good (lower_good good)

theorem runReady_good (good : Good recs [] 0 s) (n : Nat) : Good recs [] 0 (runReady page n s) := by
  induction n generalizing s with
  | zero => exact good
  | succ n ih =>
    rw [runReady]
    split
    · exact good
    · rename_i id state rest queue
      split
      · exact good
      refine ih (lower_good (e := 0) ?_)
      have pending := good.counting.pending
      refine settle_dynamic_good ({ s with orderedDynamic := rest }.note (.started (.dynamic id)))
        (start_dynamic_good good id) rfl rfl ?_ ?_
        (fun _ _ _ member => member) (fun _ _ _ member => member) rfl rfl rfl rfl _ _
      · simp only [note,view,queue,List.length_cons] at pending ⊢
        omega
      · intro d member other
        change d ∈ s.orderedDynamic at member
        rw [queue] at member
        rcases List.mem_cons.mp member with rfl | later
        · exact absurd rfl other
        · exact later

theorem runOrderedDynamic_good (good : Good recs [] 0 s) : Good recs [] 0 (s.runOrderedDynamic page) :=
  maybeFireLoad_good (runReady_good good _)

theorem perm_of_getElem? {α : Type} {list : List α} {i : Nat} {a : α} (found : list[i]? = some a) :
    list.Perm (a :: list.eraseIdx i) := by
  obtain ⟨inside,here⟩ := List.getElem?_eq_some_iff.mp found
  exact here ▸ (List.getElem_cons_eraseIdx_perm inside).symm

theorem fetched_pending (counting : Counting extra s) {i : Nat} {fetch : Fetch}
    (found : s.fetches[i]? = some fetch) : s.asyncPending = s.asyncWaiting.length +
      ((s.fetches.eraseIdx i).filterMap Fetch.asyncRecord).length + s.view.runs.length +
      s.view.evaluating.length + (s.fetches.eraseIdx i).countP Fetch.outstanding +
      s.modules.countP Module.outstanding + s.orderedDynamic.length +
      (extra + fetch.asyncRecord.toList.length + if fetch.outstanding then 1 else 0) := by
  have perm := perm_of_getElem? found
  have fetching := (perm.filterMap Fetch.asyncRecord).length_eq
  have outstanding := perm.countP_eq Fetch.outstanding
  have pending := counting.pending
  rw [List.filterMap_cons] at fetching
  rw [List.countP_cons] at outstanding
  simp only [view] at pending fetching ⊢
  rcases fetch with rec | rec | id | ⟨id,_ | _⟩ <;>
    simp [Fetch.asyncRecord,Fetch.outstanding] at fetching outstanding ⊢ <;> omega

theorem filterMap_eraseIdx {α β : Type} {f : α → Option β} {list : List α} {i : Nat} {a : α}
    (found : list[i]? = some a) (none : f a = none) : (list.eraseIdx i).filterMap f = list.filterMap f := by
  induction list generalizing i with
  | nil => rfl
  | cons b list ih =>
    cases i with
    | zero =>
      obtain rfl : b = a := by simpa using found
      simp [none]
    | succ i => simp [List.filterMap_cons,ih (by simpa using found)]

theorem mem_eraseIdx_of_ne {α : Type} {list : List α} {i : Nat} {a b : α}
    (found : list[i]? = some a) (member : b ∈ list) (other : b ≠ a) : b ∈ list.eraseIdx i := by
  have moved := (perm_of_getElem? found).mem_iff.mp member
  exact (List.mem_cons.mp moved).resolve_left other

theorem fetched_good (good : Good recs [] 0 s) (ordered : Ordered recs) {i : Nat} {fetch : Fetch}
    (found : s.fetches[i]? = some fetch) (success : Bool) :
    Good recs [] 0 ({ s with fetches := s.fetches.eraseIdx i }.onFetched page fetch success) := by
  have pending := fetched_pending good.counting found
  have here : fetch ∈ s.fetches := List.mem_of_getElem? found
  have answered : (if success then FetchState.ready else FetchState.error) ≠ .pending := by
    cases success <;> decide
  have accounted := good.counting.accounted
  have kept {other : Fetch} (member : other ∈ s.fetches) (differs : other ≠ fetch) :
      other ∈ s.fetches.eraseIdx i := mem_eraseIdx_of_ne found member differs
  cases fetch with
  | inOrder rec =>
    refine onScriptFetched_good (s := { s with
      fetches := s.fetches.eraseIdx i
      states := Function.update s.states rec.seq (if success then .ready else .error) }) ?_ ordered rec
    refine moved good rfl ⟨?_,good.counting.counted,?_⟩ ?_ rfl rfl rfl id
    · simpa [view,Fetch.asyncRecord,Fetch.outstanding] using pending
    · intro id counted inserted
      refine (accounted id counted inserted).imp_right fun later => later.imp_right fun waits =>
        waits.imp_left fun member => kept member (by rintro ⟨⟩)
    · have same := filterMap_eraseIdx (f := Fetch.asyncRecord) found rfl
      have sound := good.sound.fetchedInOrder rec
        ((s.fetches.eraseIdx i).filterMap Fetch.inOrderRecord) answered (by
          intro other member differs
          obtain ⟨f,inside,isRecord⟩ := List.mem_filterMap.mp member
          refine List.mem_filterMap.mpr ⟨f,kept inside ?_,isRecord⟩
          rintro rfl
          exact differs (Option.some.inj isRecord).symm)
        (fun other member => ((perm_of_getElem? found).filterMap _).mem_iff.mpr
          (List.mem_cons_of_mem _ member))
      rw [view,same]
      exact sound
  | async rec =>
    have isAsync : rec.Async := good.sound.asyncs rec (by
      have member : rec ∈ s.view.fetching := List.mem_filterMap.mpr ⟨_,here,rfl⟩
      simp [member])
    refine runOrWait_good (s := { s with
      fetches := s.fetches.eraseIdx i
      states := Function.update s.states rec.seq (if success then .ready else .error) }) ?_ ordered isAsync
    refine moved good rfl ⟨?_,good.counting.counted,?_⟩ ?_ rfl rfl rfl id
    · simpa [view,Fetch.asyncRecord,Fetch.outstanding] using pending
    · intro id counted inserted
      refine (accounted id counted inserted).imp_right fun later => later.imp_right fun waits =>
        waits.imp_left fun member => kept member (by rintro ⟨⟩)
    · have same := filterMap_eraseIdx (f := Fetch.inOrderRecord) found rfl
      have perm := (perm_of_getElem? found).filterMap Fetch.asyncRecord
      rw [view,same]
      refine good.sound.pick (Sound.Async.alone isAsync) ?_ rfl ?_ ?_ (fun _ member => member)
        (fun _ member => member)
      · intro other
        have counts := perm.count_eq other
        simp only [List.filterMap_cons,Fetch.asyncRecord,List.count_cons] at counts
        simp only [View.live,view,List.count_append,List.count_cons,List.count_nil]
        omega
      · intro seq pending
        change Function.update s.states rec.seq _ seq = _ at pending
        by_cases same : seq = rec.seq
        · rw [same,Function.update_self] at pending
          exact absurd pending answered
        · rwa [Function.update_of_ne same] at pending
      · intro other member
        exact perm.mem_iff.mpr (List.mem_cons_of_mem _ member)
  | ordered id =>
    have inOrder := filterMap_eraseIdx (f := Fetch.inOrderRecord) found rfl
    have fetching := filterMap_eraseIdx (f := Fetch.asyncRecord) found rfl
    refine runOrderedDynamic_good (moved good rfl ⟨?_,good.counting.counted,?_⟩ ?_ rfl rfl rfl
      fun done => done)
    · simpa [view,Fetch.asyncRecord,Fetch.outstanding] using pending
    · intro other counted inserted
      rcases accounted other counted inserted with isOver | ⟨state,waits⟩ | fetched | module
      · exact .inl isOver
      · refine .inr (.inl ?_)
        by_cases same : other = id
        · exact ⟨_,List.mem_map.mpr ⟨_,waits,by rw [if_pos same,same]⟩⟩
        · exact ⟨state,List.mem_map.mpr ⟨_,waits,if_neg same⟩⟩
      · exact .inr (.inr (.inl (kept fetched (by rintro ⟨⟩))))
      · exact .inr (.inr (.inr module))
    · rw [view,inOrder,fetching]
      exact good.sound
  | dynamic id counted =>
    have inOrder := filterMap_eraseIdx (f := Fetch.inOrderRecord) found rfl
    have fetching := filterMap_eraseIdx (f := Fetch.asyncRecord) found rfl
    refine release_good counted (settle_dynamic_good
      ({ s with fetches := s.fetches.eraseIdx i }.note (.started (.dynamic id)))
      (start_dynamic_good good id) rfl ?_ ?_
      (fun _ member _ => member) ?_ (fun _ _ _ member => member) rfl rfl rfl rfl success _)
    · simp only [note,view,inOrder,fetching]
    · cases counted <;> simpa [note,view,Fetch.asyncRecord,Fetch.outstanding] using pending
    · intro other isCounted differs member
      refine kept member ?_
      rintro ⟨⟩
      exact differs rfl

theorem module_pending (counting : Counting extra s) {i : Nat} {module : Module}
    (found : s.modules[i]? = some module) : s.asyncPending = s.asyncWaiting.length +
      s.view.fetching.length + s.view.runs.length +
      ((s.modules.eraseIdx i).filterMap Module.asyncRecord).length + s.fetches.countP Fetch.outstanding +
      (s.modules.eraseIdx i).countP Module.outstanding + s.orderedDynamic.length +
      (extra + module.asyncRecord.toList.length + if module.outstanding then 1 else 0) := by
  have perm := perm_of_getElem? found
  have evaluating := (perm.filterMap Module.asyncRecord).length_eq
  have outstanding := perm.countP_eq Module.outstanding
  have pending := counting.pending
  rw [List.filterMap_cons] at evaluating
  rw [List.countP_cons] at outstanding
  simp only [view] at pending evaluating ⊢
  rcases module with rec | rec | ⟨id,_ | _⟩ <;>
    simp [Module.asyncRecord,Module.outstanding] at evaluating outstanding ⊢ <;> omega

theorem settle_good (s' : Document) (rec : Record) {extra' : Int} (good : Good recs [] extra s)
    (ordered : Ordered recs) (begun : 0 < s.view.deferring.count rec + s.view.evaluating.count rec)
    (log : s'.log = s.log) (counting : Counting extra' s')
    (sound : Sound recs [] { s'.view with finished := rec :: s'.view.finished })
    (tasks : s'.tasks = s.tasks) (dclFired : s'.dclFired = s.dclFired)
    (loadQueued : s'.loadQueued = s.loadQueued) (done : s'.deferredDone = s.deferredDone)
    (executed : Bool) (inserted : List Dynamic) :
    Good recs [] extra' ((s'.note (.finished (.parser rec) executed)).insertAll inserted) := by
  have started : rec ∈ started s.log := by
    have count := good.sound.begun rec
    refine List.count_pos_iff.mp (?_ : 0 < s.view.started.count rec)
    omega
  have unfinished : rec ∉ finished s.log := by
    have once : recs.count rec ≤ 1 := List.nodup_iff_count_le_one.mp ordered.nodup rec
    have places := good.sound.places rec
    simp only [View.live,List.count_append] at places
    refine List.count_eq_zero.mp (?_ : s.view.finished.count rec = 0)
    omega
  refine insertAll_good (s := s'.note (.finished (.parser rec) executed))
    ⟨⟨⟨log ▸ started,log ▸ unfinished⟩,log ▸ good.noted⟩,sound,?_,?_⟩ _
  · obtain ⟨pending,counted,accounted⟩ := counting
    refine ⟨pending,?_,?_⟩
    · simpa [note] using counted
    · simpa [note] using accounted
  · obtain ⟨dcl,queued,first,once,after⟩ := good.loads
    refine ⟨?_,?_,?_,?_,?_⟩
    · simpa [note,log,dclFired] using dcl
    · simpa [note,log,loadQueued] using queued
    · simpa [note,dclFired,done] using first
    · simpa [note,log,tasks] using once
    · simpa [note,log,tasks,loadQueued] using after

theorem insertAll_rest (ds : List Dynamic) (timers : List Timer) :
    { s.insertAll ds with deferRunning := false,timers := (s.insertAll ds).timers ++ timers } =
      ({ s with deferRunning := false,timers := s.timers ++ timers } : Document).insertAll ds := by
  induction ds generalizing s with
  | nil => rfl
  | cons d ds ih =>
    refine (ih (s := s.insert d)).trans (congrArg (insertAll · ds) ?_)
    cases d <;> rfl

theorem module_good (good : Good recs [] 0 s) (ordered : Ordered recs) {i : Nat} {module : Module}
    (found : s.modules[i]? = some module) (success : Bool) :
    Good recs [] 0 ({ s with modules := s.modules.eraseIdx i }.onModule page module success) := by
  have pending := module_pending good.counting found
  have here : module ∈ s.modules := List.mem_of_getElem? found
  have accounted := good.counting.accounted
  have kept {other : Module} (member : other ∈ s.modules) (differs : other ≠ module) :
      other ∈ s.modules.eraseIdx i := mem_eraseIdx_of_ne found member differs
  have perm := perm_of_getElem? found
  have waits (extra' : Int) (pending : s.asyncPending = s.asyncWaiting.length +
      s.view.fetching.length + s.view.runs.length +
      ((s.modules.eraseIdx i).filterMap Module.asyncRecord).length + s.fetches.countP Fetch.outstanding +
      (s.modules.eraseIdx i).countP Module.outstanding + s.orderedDynamic.length + extra')
      (parser : ∀ id counted,module ≠ .dynamic id counted) :
      Counting extra' { s with modules := s.modules.eraseIdx i } := by
    refine ⟨pending,good.counting.counted,?_⟩
    intro id counted inserted
    exact (accounted id counted inserted).imp_right fun later => later.imp_right fun waits =>
      waits.imp_right fun member => kept member (parser id counted).symm
  cases module with
  | deferred rec =>
    have evaluating := filterMap_eraseIdx (f := Module.asyncRecord) found rfl
    have deferring := perm.filterMap Module.deferredRecord
    simp only [List.filterMap_cons,Module.deferredRecord] at deferring
    have single : s.view.deferring.length ≤ 1 := good.sound.single
    have none : (s.modules.eraseIdx i).filterMap Module.deferredRecord = [] := by
      have length := deferring.length_eq
      rw [List.length_cons] at length
      exact List.length_eq_zero_iff.mp (by simp only [view] at single; omega)
    rw [none] at deferring
    have only : s.view.deferring = [rec] := List.perm_singleton.mp deferring
    have count : 0 < s.view.deferring.count rec := by simp [only]
    have counting := waits 0 (by simpa [Module.asyncRecord,Module.outstanding] using pending) (by simp)
    have settled := settle_good { s with
        modules := s.modules.eraseIdx i
        deferRunning := false
        timers := s.timers ++ [.runDeferred] } rec good ordered (by omega) rfl { counting with } (by
      rw [view,evaluating,none]
      exact good.sound.doneDeferred only) rfl rfl rfl rfl success (page.inserts (.script (.parser rec)))
    have final := insertAll_rest (page.inserts (.script (.parser rec))) [Timer.runDeferred]
      (s := ({ s with modules := s.modules.eraseIdx i } : Document).note (.finished (.parser rec) success))
    exact (congrArg (Good recs [] 0) final).mpr settled
  | async rec =>
    have deferring := filterMap_eraseIdx (f := Module.deferredRecord) found rfl
    have evaluating := perm.filterMap Module.asyncRecord
    simp only [List.filterMap_cons,Module.asyncRecord] at evaluating
    refine release_good true (settle_good { s with modules := s.modules.eraseIdx i } rec
      good ordered ?_ rfl (waits 1 (by simpa [Module.asyncRecord,Module.outstanding] using pending) (by simp))
      ?_ rfl rfl rfl rfl success _)
    · have some : 0 < s.view.evaluating.count rec :=
        List.count_pos_iff.mpr (evaluating.mem_iff.mpr List.mem_cons_self)
      omega
    · rw [view,deferring]
      refine good.sound.doneAsync ?_
      intro other
      have counts := evaluating.count_eq other
      simpa [view,List.count_cons,Nat.add_comm] using counts
  | dynamic id counted =>
    have deferring := filterMap_eraseIdx (f := Module.deferredRecord) found rfl
    have evaluating := filterMap_eraseIdx (f := Module.asyncRecord) found rfl
    refine release_good counted (settle_dynamic_good { s with modules := s.modules.eraseIdx i } good rfl ?_ ?_
      (fun _ member _ => member) (fun _ _ _ member => member) ?_ rfl rfl rfl rfl success _)
    · rw [view,deferring,evaluating]
      rfl
    · cases counted <;> simpa [view,Module.asyncRecord,Module.outstanding] using pending
    · intro other isCounted differs member
      refine kept member ?_
      rintro ⟨⟩
      exact differs rfl

theorem timer_good (good : Good recs [] 0 s) (ordered : Ordered recs) {i : Nat} {timer : Timer}
    (parsed : timer = .runDeferred → s.parsingFinished = true) :
    Good recs [] 0 ({ s with timers := s.timers.eraseIdx i }.onTimer page timer) := by
  have erased : Good recs [] 0 { s with timers := s.timers.eraseIdx i } :=
    moved good rfl { good.counting with } good.sound rfl rfl rfl id
  cases timer with
  | pumpParser => exact pumpParser_good erased ordered
  | runDeferred => exact runDeferred_good erased ordered (parsed rfl)

theorem task_good (good : Good recs [] 0 s) (ordered : Ordered recs) {task : Task} {rest : List Task}
    (first : s.tasks = task :: rest) : Good recs [] 0 ({ s with tasks := rest }.onTask page task) := by
  have loads := good.loads
  have pending := good.counting.pending
  cases task with
  | run rec =>
    have here : rec ∈ s.view.runs := by simp [view,first,Task.runRecord,List.filterMap_cons]
    have isAsync : rec.Async := good.sound.asyncs rec (by simp [here])
    refine runAsync_good (s := { s with tasks := rest }) ?_ ordered isAsync (cleared_of_async isAsync ?_)
    · refine moved good rfl { good.counting with pending := ?_ } ?_ (by simp [first]) rfl rfl id
      · simp [view,first,Task.runRecord,List.filterMap_cons] at pending ⊢
        omega
      · refine good.sound.pick (Sound.Async.alone isAsync) ?_ rfl (fun _ same => same)
          (fun _ member => member) ?_ ?_
        · intro other
          simp [View.live,view,first,Task.runRecord,Task.errorRecord,List.filterMap_cons,List.count_cons]
          omega
        · intro other member
          simp only [view,first,List.filterMap_cons,Task.runRecord]
          exact List.mem_cons_of_mem _ member
        · intro other member
          simpa only [view,first,List.filterMap_cons,Task.errorRecord] using member
    · intro other known isBlocking before
      exact (good.sound.cleared rec here other known isBlocking before).imp_right (by rintro ⟨⟩)
  | error rec =>
    have here : rec ∈ s.view.errors := by simp [view,first,Task.errorRecord,List.filterMap_cons]
    have broken := good.sound.broken rec here
    have alone : ¬rec.Blocking ∧ ¬rec.Deferred :=
      ⟨fun wrong => by simp [Element.Blocking,broken] at wrong,
        fun wrong => by simp [Element.Deferred,broken] at wrong⟩
    have notAsync : ¬rec.Async := fun wrong => by simp [Element.Async,broken] at wrong
    refine exec_good (s := { s with tasks := rest }) ?_ ordered ?_ false
    · refine moved good rfl { good.counting with pending := ?_ } ?_ (by simp [first]) rfl rfl id
      · simp [view,first,Task.runRecord,List.filterMap_cons] at pending ⊢
        omega
      · refine good.sound.pick alone ?_ rfl (fun _ same => same) (fun _ member => member) ?_ ?_
        · intro other
          simp [View.live,view,first,Task.runRecord,Task.errorRecord,List.filterMap_cons,List.count_cons]
          omega
        · intro other member
          simpa only [view,first,List.filterMap_cons,Task.runRecord] using member
        · intro other member
          simp only [view,first,List.filterMap_cons,Task.errorRecord]
          exact List.mem_cons_of_mem _ member
    · exact ⟨fun wrong => absurd wrong (not_or.mpr ⟨alone.1,notAsync⟩),fun wrong => absurd wrong alone.2⟩
  | load =>
    obtain ⟨dcl,queued,first',once,after⟩ := loads
    rw [first,List.count_cons_self] at once
    have unloaded : Entry.load ∉ s.log := List.count_eq_zero.mp (by omega)
    have isQueued : s.loadQueued = true := after (.inl (first ▸ List.mem_cons_self))
    change Good recs [] 0 { s with tasks := rest,log := Entry.load :: s.log }
    refine ⟨⟨⟨unloaded,queued.mpr isQueued⟩,good.noted⟩,?_,?_,?_⟩
    · have same : ({ s with tasks := rest,log := Entry.load :: s.log } : Document).view = s.view := by
        simp [view,first,started,finished,Task.runRecord,Task.errorRecord,List.filterMap_cons]
      exact same ▸ good.sound
    · obtain ⟨pending,counted,accounted⟩ := good.counting
      refine ⟨?_,by simpa using counted,by simpa using accounted⟩
      simpa [view,first,Task.runRecord,List.filterMap_cons] using pending
    · refine ⟨by simpa using dcl,by simpa using queued,first',?_,fun _ => isQueued⟩
      simp only [List.count_cons_self]
      omega

/-- What wakes the parser and the deferred scripts depends on. -/
structure Alike (s s' : Document) : Prop where
  timers : s'.timers = s.timers
  states : s'.states = s.states
  parserQueue : s'.parserQueue = s.parserQueue
  deferQueue : s'.deferQueue = s.deferQueue
  parsingFinished : s'.parsingFinished = s.parsingFinished
  deferredDone : s'.deferredDone = s.deferredDone
  deferRunning : s'.deferRunning = s.deferRunning
  dclFired : s'.dclFired = s.dclFired

theorem Alike.via {first third : Document} (second : Document) (one : Alike first second)
    (two : Alike second third) : Alike first third :=
  ⟨two.timers.trans one.timers,two.states.trans one.states,two.parserQueue.trans one.parserQueue,
    two.deferQueue.trans one.deferQueue,two.parsingFinished.trans one.parsingFinished,
    two.deferredDone.trans one.deferredDone,two.deferRunning.trans one.deferRunning,
    two.dclFired.trans one.dclFired⟩

variable (s page)

theorem Alike.insertAll (ds : List Dynamic) : Alike s (s.insertAll ds) := by
  induction ds generalizing s with
  | nil => exact ⟨rfl,rfl,rfl,rfl,rfl,rfl,rfl,rfl⟩
  | cons d ds ih =>
    refine Alike.via _ ?_ (ih (s.insert d))
    cases d <;> exact ⟨rfl,rfl,rfl,rfl,rfl,rfl,rfl,rfl⟩

theorem Alike.exec (who : Who) (executed : Bool) : Alike s (s.exec page who executed) :=
  Alike.via ((s.note (.started who)).note (.finished who executed)) ⟨rfl,rfl,rfl,rfl,rfl,rfl,rfl,rfl⟩
    (Alike.insertAll _ _)

theorem Alike.maybeFireLoad : Alike s (s.maybeFireLoad page) := by
  unfold Document.maybeFireLoad
  repeat' split
  all_goals exact ⟨rfl,rfl,rfl,rfl,rfl,rfl,rfl,rfl⟩

theorem Alike.release (counted : Bool) : Alike s (s.release page counted) := by
  cases counted with
  | false => exact ⟨rfl,rfl,rfl,rfl,rfl,rfl,rfl,rfl⟩
  | true =>
    exact Alike.via { s with asyncPending := s.asyncPending - 1 } ⟨rfl,rfl,rfl,rfl,rfl,rfl,rfl,rfl⟩
      (Alike.maybeFireLoad page _)

theorem Alike.runAsync (rec : Record) : Alike s (s.runAsync page rec) := by
  unfold Document.runAsync
  split
  · refine Alike.via _ (Alike.via { s with asyncPending := s.asyncPending - 1 } ?_ (Alike.exec page _ _ _))
      (Alike.maybeFireLoad page _)
    exact ⟨rfl,rfl,rfl,rfl,rfl,rfl,rfl,rfl⟩
  · exact ⟨rfl,rfl,rfl,rfl,rfl,rfl,rfl,rfl⟩

theorem Alike.runOrWait (rec : Record) : Alike s (s.runOrWait page rec) := by
  unfold Document.runOrWait
  split
  · exact Alike.runAsync page s rec
  · exact ⟨rfl,rfl,rfl,rfl,rfl,rfl,rfl,rfl⟩

theorem Alike.runReady (n : Nat) : Alike s (runReady page n s) := by
  induction n generalizing s with
  | zero => exact ⟨rfl,rfl,rfl,rfl,rfl,rfl,rfl,rfl⟩
  | succ n ih =>
    rw [Document.runReady]
    split
    · exact ⟨rfl,rfl,rfl,rfl,rfl,rfl,rfl,rfl⟩
    split
    · exact ⟨rfl,rfl,rfl,rfl,rfl,rfl,rfl,rfl⟩
    · rename_i id state rest _ _
      have ran := Alike.exec page { s with orderedDynamic := rest } (.dynamic id) (state = FetchState.ready)
      refine Alike.via _ ?_ (ih _)
      exact ⟨ran.timers,ran.states,ran.parserQueue,ran.deferQueue,ran.parsingFinished,ran.deferredDone,
        ran.deferRunning,ran.dclFired⟩

end Document

structure Awake (s : Document) : Prop where
  timed : .runDeferred ∈ s.timers → s.parsingFinished = true
  closed : s.deferredDone = true → s.dclFired = true
  pumps : s.parsingFinished = false → .pumpParser ∈ s.timers ∨
    ∃ rec rest,s.parserQueue = rec :: rest ∧ s.states rec.seq = .pending
  runs : s.parsingFinished = true → s.deferredDone = true ∨ .runDeferred ∈ s.timers ∨
    s.deferRunning = true ∨
    ∃ rec rest,s.deferQueue = rec :: rest ∧ rec.kind = .classic ∧ s.states rec.seq = .pending

theorem Awake.alike {s s' : Document} (awake : Awake s) (alike : Document.Alike s s') : Awake s' := by
  obtain ⟨timed,closed,pumps,runs⟩ := awake
  obtain ⟨timers,states,parserQueue,deferQueue,parsed,done,running,fired⟩ := alike
  refine ⟨?_,?_,?_,?_⟩
  · rwa [timers,parsed]
  · rwa [done,fired]
  · rwa [timers,parsed,parserQueue,states]
  · rwa [timers,parsed,done,running,deferQueue,states]

namespace Document

variable {page : Page} {s : Document} {recs : List Record}

theorem fireDOMContentLoaded_awake (timed : .runDeferred ∈ s.timers → s.parsingFinished = true)
    (parsed : s.parsingFinished = true) (done : s.deferredDone = true) :
    Awake (s.fireDOMContentLoaded page) := by
  unfold fireDOMContentLoaded
  split
  · rename_i fired
    exact ⟨timed,fun _ => fired,fun unparsed => by simp [parsed] at unparsed,fun _ => .inl done⟩
  · have fired : Awake { s with dclFired := true,log := Entry.domContentLoaded :: s.log } :=
      ⟨timed,fun _ => rfl,fun unparsed => by simp [parsed] at unparsed,fun _ => .inl done⟩
    exact fired.alike ((Alike.insertAll _ _).via _ (Alike.maybeFireLoad page _))

theorem runDeferred_awake (closed : s.deferredDone = true → s.dclFired = true)
    (parsed : s.parsingFinished = true) : Awake (s.runDeferred page) := by
  have unpumped : s.parsingFinished = false → .pumpParser ∈ s.timers ∨
      ∃ rec rest,s.parserQueue = rec :: rest ∧ s.states rec.seq = .pending := by
    intro unparsed
    simp [parsed] at unparsed
  unfold runDeferred
  split
  · rename_i stays
    refine ⟨fun _ => parsed,closed,unpumped,fun _ => ?_⟩
    rcases (Bool.or_eq_true _ _).mp stays with done | running
    · exact .inl done
    · exact .inr (.inr (.inl running))
  split
  · exact fireDOMContentLoaded_awake (fun _ => parsed) parsed rfl
  · rename_i rec rest queue
    split
    · exact ⟨fun _ => parsed,closed,unpumped,fun _ => .inr (.inr (.inl rfl))⟩
    · rename_i notModule
      have classic : rec.kind = .classic := by
        cases kind : rec.kind with
        | classic => rfl
        | module => exact absurd kind notModule
      split
      · rename_i pending
        exact ⟨fun _ => parsed,closed,unpumped,
          fun _ => .inr (.inr (.inr ⟨rec,rest,queue,classic,pending⟩))⟩
      · have next : Awake { s with deferQueue := rest,timers := s.timers ++ [Timer.runDeferred] } :=
          ⟨fun _ => parsed,closed,fun unparsed => by simp [parsed] at unparsed,fun _ => .inr (.inl (by simp))⟩
        exact next.alike (Alike.exec page _ _ _)

theorem pumpParser_awake (timed : .runDeferred ∈ s.timers → s.parsingFinished = true)
    (closed : s.deferredDone = true → s.dclFired = true)
    (runs : s.parsingFinished = true → s.deferredDone = true ∨ .runDeferred ∈ s.timers ∨ s.deferRunning = true ∨
      ∃ rec rest,s.deferQueue = rec :: rest ∧ rec.kind = .classic ∧ s.states rec.seq = .pending)
    (parsed : s.parsingFinished = true → s.parserQueue = [])
    (classics : ∀ rec ∈ s.parserQueue,rec.kind = .classic) : Awake (s.pumpParser page) := by
  unfold pumpParser
  split
  · refine Awake.alike ?_ (Alike.maybeFireLoad page _)
    unfold finishParsing
    split
    · rename_i finished
      exact ⟨timed,closed,fun unparsed => by simp [finished] at unparsed,runs⟩
    · have alike := Alike.insertAll ({ s with parsingFinished := true } : Document).releaseAsync
        (page.inserts .interactive)
      refine runDeferred_awake ?_ alike.parsingFinished
      rw [alike.deferredDone,alike.dclFired]
      exact closed
  · rename_i rec rest queue
    have unparsed : s.parsingFinished = false := by
      cases finished : s.parsingFinished with
      | false => rfl
      | true =>
        have none := parsed finished
        rw [queue] at none
        cases none
    split
    · rename_i pending
      exact ⟨timed,closed,fun _ => .inr ⟨rec,rest,queue,pending⟩,fun parsed => by simp [unparsed] at parsed⟩
    · have classic := classics rec (queue ▸ List.mem_cons_self)
      have next : Awake { ({ s with parserQueue := rest } : Document).releaseAsync with
          timers := ({ s with parserQueue := rest } : Document).releaseAsync.timers ++ [Timer.pumpParser] } := by
        refine ⟨?_,closed,fun _ => .inl (by simp),fun parsed => ?_⟩
        · intro set
          refine timed ?_
          simpa [releaseAsync] using set
        · rw [show s.parsingFinished = true from parsed] at unparsed
          cases unparsed
      dsimp only
      split
      · exact next.alike (Alike.exec page _ _ _)
      · rw [if_neg (by simp [classic])]
        exact next.alike (Alike.exec page _ _ _)

theorem classic_of_blocking {rec : Record} (isBlocking : rec.Blocking) : rec.kind = .classic := by
  cases kind : rec.kind with
  | classic => rfl
  | module =>
    have placed := isBlocking.2
    simp only [Element.placement,kind] at placed
    split at placed <;> cases placed

theorem timer_awake (good : Good recs [] 0 s) (awake : Awake s) {i : Nat} {timer : Timer}
    (found : s.timers[i]? = some timer) :
    Awake ({ s with timers := s.timers.eraseIdx i }.onTimer page timer) := by
  have here : timer ∈ s.timers := List.mem_of_getElem? found
  cases timer with
  | runDeferred => exact runDeferred_awake awake.closed (awake.timed here)
  | pumpParser =>
    refine pumpParser_awake ?_ awake.closed ?_ (fun parsed => (good.sound.parsed parsed).1)
      fun _ member => classic_of_blocking (good.sound.parser_blocking member).2
    · exact fun set => awake.timed (List.mem_of_mem_eraseIdx set)
    · intro parsed
      exact (awake.runs parsed).imp_right fun later => later.imp_left fun set =>
        mem_eraseIdx_of_ne found set nofun

theorem task_awake (awake : Awake s) (task : Task) (rest : List Task) :
    Awake ({ s with tasks := rest }.onTask page task) := by
  have taken : Awake { s with tasks := rest } := ⟨awake.timed,awake.closed,awake.pumps,awake.runs⟩
  cases task with
  | run rec => exact taken.alike (Alike.runAsync page _ rec)
  | error rec => exact taken.alike (Alike.exec page _ _ _)
  | load => exact taken.alike ⟨rfl,rfl,rfl,rfl,rfl,rfl,rfl,rfl⟩

theorem answered_awake (awake : Awake s) (fetches : List Fetch) {rec : Record} (state : FetchState)
    (parser : ∀ head ∈ s.parserQueue.head?,head.seq ≠ rec.seq)
    (deferred : s.parsingFinished = true → ∀ head ∈ s.deferQueue.head?,head.seq ≠ rec.seq) :
    Awake { s with fetches,states := Function.update s.states rec.seq state } := by
  refine ⟨awake.timed,awake.closed,fun unparsed => ?_,fun parsed => ?_⟩
  · rcases awake.pumps unparsed with timer | ⟨head,rest,queue,pending⟩
    · exact .inl timer
    · refine .inr ⟨head,rest,queue,?_⟩
      exact (Function.update_of_ne (parser head (by rw [queue]; rfl)) _ _).trans pending
  · rcases awake.runs parsed with done | timer | running | ⟨head,rest,queue,classic,pending⟩
    · exact .inl done
    · exact .inr (.inl timer)
    · exact .inr (.inr (.inl running))
    · refine .inr (.inr (.inr ⟨head,rest,queue,classic,?_⟩))
      exact (Function.update_of_ne (deferred parsed head (by rw [queue]; rfl)) _ _).trans pending

theorem fetched_awake (good : Good recs [] 0 s) (ordered : Ordered recs) (awake : Awake s) {i : Nat}
    {fetch : Fetch} (found : s.fetches[i]? = some fetch) (success : Bool) :
    Awake ({ s with fetches := s.fetches.eraseIdx i }.onFetched page fetch success) := by
  have here : fetch ∈ s.fetches := List.mem_of_getElem? found
  have erased : Awake { s with fetches := s.fetches.eraseIdx i } :=
    ⟨awake.timed,awake.closed,awake.pumps,awake.runs⟩
  cases fetch with
  | inOrder rec =>
    have known : rec ∈ recs := good.sound.inOrder rec (List.mem_filterMap.mpr ⟨_,here,rfl⟩)
    have parserHead : ∀ head ∈ s.parserQueue.head?,head.seq = rec.seq → head = rec := by
      intro head first same
      have member : head ∈ s.view.parserQueue := List.mem_of_head? first
      exact ordered.eq_of_seq (good.sound.parser_blocking member).1 known same
    have deferHead : ∀ head ∈ s.deferQueue.head?,head.seq = rec.seq → head = rec := by
      intro head first same
      have member : head ∈ s.view.deferQueue := List.mem_of_head? first
      exact ordered.eq_of_seq (good.sound.defer_deferred (List.mem_append_right _ member)).1 known same
    simp only [onFetched,onScriptFetched]
    split
    · rename_i first
      have member : rec ∈ s.view.parserQueue := List.mem_of_head? first
      have unparsed : s.parsingFinished = false := by
        cases parsed : s.parsingFinished with
        | false => rfl
        | true =>
          rw [(good.sound.parsed parsed).1] at member
          cases member
      refine pumpParser_awake awake.timed awake.closed (fun parsed => ?_)
        (fun parsed => (good.sound.parsed parsed).1)
        fun _ member => classic_of_blocking (good.sound.parser_blocking member).2
      rw [show s.parsingFinished = true from parsed] at unparsed
      cases unparsed
    · rename_i notFirst
      split
      · rename_i both
        rw [Bool.and_eq_true] at both
        exact runDeferred_awake awake.closed both.1
      · rename_i notBoth
        refine answered_awake awake _ _ ?_ ?_
        · intro head first same
          rw [parserHead head first same] at first
          exact notFirst first
        · intro parsed head first same
          rw [deferHead head first same] at first
          simp [parsed,show s.deferQueue.head? = some rec from first] at notBoth
  | async rec =>
    have member : rec ∈ s.view.fetching := List.mem_filterMap.mpr ⟨_,here,rfl⟩
    have isAsync : rec.Async := good.sound.asyncs rec (by simp [member])
    have known : rec ∈ recs := by
      have places := good.sound.places rec
      have some : 0 < s.view.fetching.count rec := List.count_pos_iff.mpr member
      simp only [View.live,List.count_append] at places
      exact List.count_pos_iff.mp (by omega)
    refine (answered_awake awake _ _ ?_ ?_).alike (Alike.runOrWait page _ rec)
    · intro head first same
      have isBlocking := good.sound.parser_blocking (List.mem_of_head? first : head ∈ s.view.parserQueue)
      rw [ordered.eq_of_seq isBlocking.1 known same] at isBlocking
      exact (Sound.Async.alone isAsync).1 isBlocking.2
    · intro _ head first same
      have isDeferred := good.sound.defer_deferred
        (List.mem_append_right _ (List.mem_of_head? first : head ∈ s.view.deferQueue))
      rw [ordered.eq_of_seq isDeferred.1 known same] at isDeferred
      exact (Sound.Async.alone isAsync).2 isDeferred.2
  | ordered id =>
    refine Awake.alike ?_ ((Alike.runReady page _ _).via _ (Alike.maybeFireLoad page _))
    exact ⟨awake.timed,awake.closed,awake.pumps,awake.runs⟩
  | dynamic id counted =>
    exact erased.alike ((Alike.exec page _ _ _).via _ (Alike.release page _ counted))

theorem module_awake (good : Good recs [] 0 s) (awake : Awake s) {i : Nat} {module : Module}
    (found : s.modules[i]? = some module) (success : Bool) :
    Awake ({ s with modules := s.modules.eraseIdx i }.onModule page module success) := by
  have here : module ∈ s.modules := List.mem_of_getElem? found
  have settled (entry : Entry) :
      Awake (({ s with modules := s.modules.eraseIdx i } : Document).note entry) :=
    ⟨awake.timed,awake.closed,awake.pumps,awake.runs⟩
  cases module with
  | deferred rec =>
    have parsed : s.parsingFinished = true := by
      cases parsed : s.parsingFinished with
      | true => rfl
      | false =>
        have none := (good.sound.unparsed parsed).2.1
        have member : rec ∈ s.view.deferring := List.mem_filterMap.mpr ⟨_,here,rfl⟩
        rw [none] at member
        cases member
    have alike := Alike.insertAll
      (({ s with modules := s.modules.eraseIdx i } : Document).note (.finished (.parser rec) success))
      (page.inserts (.script (.parser rec)))
    refine ⟨fun _ => alike.parsingFinished.trans parsed,?_,?_,
      fun _ => .inr (.inl (List.mem_append_right _ List.mem_cons_self))⟩
    · intro done
      exact alike.dclFired.trans (awake.closed (alike.deferredDone.symm.trans done))
    · intro unparsed
      have finished := alike.parsingFinished.symm.trans unparsed
      rw [show s.parsingFinished = false from finished] at parsed
      cases parsed
  | async rec => exact (settled _).alike ((Alike.insertAll _ _).via _ (Alike.release page _ true))
  | dynamic id counted =>
    exact (settled _).alike ((Alike.insertAll _ _).via _ (Alike.release page _ counted))

end Document

structure Invariant (recs : List Record) (s : Document) : Prop where
  good : Good recs [] 0 s
  awake : Awake s

theorem Invariant.step {recs : List Record} {s next : Document} (invariant : Invariant recs s)
    (ordered : Ordered recs) {action : Action} (taken : s.step action = some next) : Invariant recs next := by
  obtain ⟨good,awake⟩ := invariant
  cases action with
  | timer i page =>
    obtain ⟨timer,found,rfl⟩ := Option.map_eq_some_iff.mp taken
    exact ⟨Document.timer_good good ordered fun isRun =>
      awake.timed (isRun ▸ List.mem_of_getElem? found),Document.timer_awake good awake found⟩
  | task page =>
    cases first : s.tasks with
    | nil => simp [Document.step,first] at taken
    | cons task rest =>
      simp only [Document.step,first,Option.some.injEq] at taken
      exact taken ▸ ⟨Document.task_good good ordered first,Document.task_awake awake task rest⟩
  | fetched i success page =>
    obtain ⟨fetch,found,rfl⟩ := Option.map_eq_some_iff.mp taken
    exact ⟨Document.fetched_good good ordered found success,
      Document.fetched_awake good ordered awake found success⟩
  | moduleDone i success page =>
    obtain ⟨module,found,rfl⟩ := Option.map_eq_some_iff.mp taken
    exact ⟨Document.module_good good ordered found success,Document.module_awake good awake found success⟩
  | page inserted =>
    cases taken
    exact ⟨Document.insertAll_good good inserted,awake.alike (Document.Alike.insertAll s inserted)⟩
  | resourcesLoaded page =>
    cases taken
    exact ⟨Document.maybeFireLoad_good good,awake.alike (Document.Alike.maybeFireLoad page s)⟩

namespace Document

variable {page : Page} {s : Document} {recs met rest : List Record} {rec : Record}

end Document

theorem Invariant.orderly {recs : List Record} {s : Document} (invariant : Invariant recs s) :
    Orderly recs s := by
  obtain ⟨good,awake⟩ := invariant
  refine ⟨good.noted,?_⟩
  rintro ⟨timers,tasks,fetches,modules⟩
  have unfetched : s.view.inOrder = [] := by simp [Document.view,fetches]
  have still : s.view.deferring = [] := by simp [Document.view,modules]
  have parsed : s.parsingFinished = true := by
    cases parsed : s.parsingFinished with
    | true => rfl
    | false =>
      rcases awake.pumps parsed with timer | ⟨rec,rest,queue,pending⟩
      · simp [timers] at timer
      · have head : rec ∈ s.view.parserQueue := (queue ▸ List.mem_cons_self : rec ∈ s.parserQueue)
        have fetched := good.sound.fetched rec (List.mem_append_left _ head)
          (Document.classic_of_blocking (good.sound.parser_blocking head).2) pending
        simp [unfetched] at fetched
  have done : s.deferredDone = true := by
    rcases awake.runs parsed with done | timer | running | ⟨rec,rest,queue,classic,pending⟩
    · exact done
    · simp [timers] at timer
    · exact absurd still (good.sound.running.mp running)
    · have head : rec ∈ s.view.deferQueue := (queue ▸ List.mem_cons_self : rec ∈ s.deferQueue)
      have fetched := good.sound.fetched rec (List.mem_append_right _ head) classic pending
      simp [unfetched] at fetched
  constructor
  · intro rec member
    have places := good.sound.places rec
    have present : 0 < recs.count rec := List.count_pos_iff.mpr member
    obtain ⟨noParser,-,noWaiting⟩ := good.sound.parsed parsed
    obtain ⟨noDeferred,-,-⟩ := good.sound.done done
    have rest : s.view.fetching = [] ∧ s.view.runs = [] ∧ s.view.errors = [] ∧ s.view.evaluating = [] := by
      simp [Document.view,fetches,tasks,modules]
    simp only [View.live,noParser,noWaiting,noDeferred,still,rest,List.append_nil,List.count_nil] at places
    have isOver : 0 < s.view.finished.count rec := by omega
    exact List.count_pos_iff.mp isOver
  · exact good.loads.dcl.mpr (awake.closed done)

/-- `load` is fired with nothing outstanding, and not only queued so. -/
def Prompt (recs : List Record) (s : Document) : Prop :=
  Orderly recs s ∧ Noted (fun entry log => entry = .load → Idle recs log) s.log

end Sharko.Script.PageScripts
