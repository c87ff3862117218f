import Mathlib
import Sharko.Library.Runs

/-! How the scripts of a parsed document are run: the parser's queue, the deferred scripts, the
async ones that the parser has not reached, and those that other scripts insert. Timers, tasks,
fetches and module promises come back in any order; a script is one step. -/

namespace Sharko.Script.PageScripts

open Library

inductive Kind where
  | classic
  | module
  deriving DecidableEq

/-- What `makeRecord` reads off the element. The source is none when it is inline, and says of a
`src` whether it can be resolved. -/
structure Element where
  kind : Kind
  src : Option Bool
  async : Bool
  defer : Bool
  deriving DecidableEq

inductive FetchState where
  | pending
  | ready
  | error
  deriving DecidableEq

structure Record extends Element where
  seq : Nat
  deriving DecidableEq

inductive Placement where
  | blocking
  | defer
  | async
  deriving DecidableEq

namespace Element

variable (el : Element)

def external : Bool := el.src.isSome

def broken : Bool := el.src = some false

def state : FetchState :=
  match el.src with
  | none => .ready
  | some true => .pending
  | some false => .error

/-- What `scheduleParserRecord` answers. -/
def placement : Placement :=
  match el.kind with
  | .classic =>
    if el.external && el.async then .async
    else if el.external && el.defer then .defer
    else .blocking
  | .module => if el.async then .async else .defer

end Element

/-- A script that another inserts; those that run on the spot are part of the one that does. -/
inductive Dynamic where
  | module
  | ordered
  | async
  deriving DecidableEq

inductive Who where
  | parser (rec : Record)
  | dynamic (id : Nat)
  deriving DecidableEq

inductive Entry where
  | inserted (id : Nat) (counted : Bool)
  | started (who : Who)
  | finished (who : Who) (executed : Bool)
  | domContentLoaded
  | loadQueued
  | load
  deriving DecidableEq

/-- Where the code of the page runs within a step. -/
inductive Moment where
  | interactive
  | domContentLoaded
  | script (who : Who)
  deriving DecidableEq

/-- What a step finds out about the page: the scripts that each piece of its code inserts, and
whether `N.pendingResourceCount` is positive. -/
structure Page where
  inserts : Moment → List Dynamic := fun _ => []
  resources : Bool := false

inductive Fetch where
  /-- With `onScriptFetched`. -/
  | inOrder (rec : Record)
  | async (rec : Record)
  | ordered (id : Nat)
  | dynamic (id : Nat) (counted : Bool)
  deriving DecidableEq

/-- A module whose promise is open. -/
inductive Module where
  | deferred (rec : Record)
  | async (rec : Record)
  | dynamic (id : Nat) (counted : Bool)
  deriving DecidableEq

inductive Task where
  | run (rec : Record)
  | error (rec : Record)
  | load
  deriving DecidableEq

inductive Timer where
  | pumpParser
  | runDeferred
  deriving DecidableEq

structure Document where
  states : Nat → FetchState := fun _ => .ready
  parserQueue : List Record := []
  deferQueue : List Record := []
  asyncWaiting : List Record := []
  orderedDynamic : List (Nat × FetchState) := []
  asyncPending : Int := 0
  deferRunning : Bool := false
  parsingFinished : Bool := false
  deferredDone : Bool := false
  dclFired : Bool := false
  loadQueued : Bool := false
  nextDynamic : Nat := 0
  fetches : List Fetch := []
  modules : List Module := []
  tasks : List Task := []
  timers : List Timer := []
  log : List Entry := []

namespace Document

variable (page : Page) (s : Document)

def note (entry : Entry) : Document := { s with log := entry :: s.log }

def insert (d : Dynamic) : Document :=
  let counted := !s.loadQueued
  let id := s.nextDynamic
  let s := { s with
    nextDynamic := id + 1
    asyncPending := s.asyncPending + (if counted then 1 else 0)
    log := .inserted id counted :: s.log }
  match d with
  | .module => { s with modules := s.modules ++ [.dynamic id counted] }
  | .ordered =>
    { s with
      asyncPending := s.asyncPending + (if counted then 0 else 1)
      orderedDynamic := s.orderedDynamic ++ [(id,.pending)]
      fetches := s.fetches ++ [.ordered id] }
  | .async => { s with fetches := s.fetches ++ [.dynamic id counted] }

def insertAll (ds : List Dynamic) : Document := ds.foldl insert s

def exec (who : Who) (executed : Bool) : Document :=
  ((s.note (.started who)).note (.finished who executed)).insertAll (page.inserts (.script who))

def maybeFireLoad : Document :=
  if s.loadQueued || !s.dclFired then s
  else if 0 < s.asyncPending then s
  else if s.parserQueue ≠ [] then s
  else if page.resources then s
  else { s with loadQueued := true,tasks := s.tasks ++ [.load],log := .loadQueued :: s.log }

def asyncMayRun (rec : Record) : Bool :=
  s.parsingFinished ||
    match s.parserQueue with
    | [] => true
    | first :: _ => decide (rec.seq < first.seq)

def releaseAsync : Document :=
  { s with
    asyncWaiting := s.asyncWaiting.filter fun rec => !s.asyncMayRun rec
    tasks := s.tasks ++ (s.asyncWaiting.filter fun rec => s.asyncMayRun rec).map .run }

def fireDOMContentLoaded : Document :=
  if s.dclFired then s
  else
    ({ s with dclFired := true,log := .domContentLoaded :: s.log }.insertAll
      (page.inserts .domContentLoaded)).maybeFireLoad page

def runDeferred : Document :=
  if s.deferredDone || s.deferRunning then s
  else
    match s.deferQueue with
    | [] => { s with deferredDone := true }.fireDOMContentLoaded page
    | rec :: rest =>
      if rec.kind = .module then
        { s with
          deferQueue := rest
          deferRunning := true
          modules := s.modules ++ [.deferred rec]
          log := .started (.parser rec) :: s.log }
      else if s.states rec.seq = .pending then s
      else
        let next := { s with deferQueue := rest,timers := s.timers ++ [Timer.runDeferred] }
        next.exec page (.parser rec) (s.states rec.seq = .ready)

def finishParsing : Document :=
  if s.parsingFinished then s
  else
    ({ s with parsingFinished := true }.releaseAsync.insertAll (page.inserts .interactive)).runDeferred
      page

def pumpParser : Document :=
  match s.parserQueue with
  | [] => (s.finishParsing page).maybeFireLoad page
  | rec :: rest =>
    if s.states rec.seq = .pending then s
    else
      let next := { s with parserQueue := rest }.releaseAsync
      let next := { next with timers := next.timers ++ [Timer.pumpParser] }
      if s.states rec.seq = .error then next.exec page (.parser rec) false
      else if rec.kind = .module then { next with deferQueue := next.deferQueue ++ [rec] }
      else next.exec page (.parser rec) true

def onScriptFetched (rec : Record) : Document :=
  if s.parserQueue.head? = some rec then s.pumpParser page
  else if s.parsingFinished && s.deferQueue.head? = some rec then s.runDeferred page
  else s

/-- The `run` of an async script. A module has only started by then. -/
def runAsync (rec : Record) : Document :=
  match rec.kind with
  | .classic =>
    let next := { s with asyncPending := s.asyncPending - 1 }
    (next.exec page (.parser rec) (s.states rec.seq = .ready)).maybeFireLoad page
  | .module =>
    { s with
      modules := s.modules ++ [.async rec]
      log := .started (.parser rec) :: s.log }

def runOrWait (rec : Record) : Document :=
  if s.asyncMayRun rec then s.runAsync page rec
  else { s with asyncWaiting := s.asyncWaiting ++ [rec] }

def scheduleParserRecord (rec : Record) : Document :=
  match rec.placement with
  | .async =>
    let next := { s with asyncPending := s.asyncPending + 1 }
    match rec.kind with
    | .classic => { next with fetches := next.fetches ++ [.async rec] }
    | .module => next.runOrWait page rec
  | .defer =>
    { s with
      deferQueue := s.deferQueue ++ [rec]
      fetches := if rec.kind = .classic then s.fetches ++ [.inOrder rec] else s.fetches }
  | .blocking =>
    { s with
      parserQueue := s.parserQueue ++ [rec]
      fetches := if rec.external then s.fetches ++ [.inOrder rec] else s.fetches }

def meet (rec : Record) : Document :=
  let s := { s with states := Function.update s.states rec.seq rec.state }
  if rec.broken then { s with tasks := s.tasks ++ [.error rec] } else s.scheduleParserRecord page rec

/-- The loop of `runOrderedDynamic`: what it inserts is pending, so it takes no more turns than
there are scripts when it begins. -/
def runReady : Nat → Document → Document
  | 0,s => s
  | n + 1,s =>
    match s.orderedDynamic with
    | [] => s
    | (id,state) :: rest =>
      if state = .pending then s
      else
        let next := { s with orderedDynamic := rest }.exec page (.dynamic id)
          (state = FetchState.ready)
        runReady n { next with asyncPending := next.asyncPending - 1 }

def runOrderedDynamic : Document := (runReady page s.orderedDynamic.length s).maybeFireLoad page

def release (counted : Bool) : Document :=
  if counted then { s with asyncPending := s.asyncPending - 1 }.maybeFireLoad page else s

def onFetched (fetch : Fetch) (success : Bool) : Document :=
  let state : FetchState := if success then .ready else .error
  match fetch with
  | .inOrder rec => { s with states := Function.update s.states rec.seq state }.onScriptFetched page rec
  | .async rec => { s with states := Function.update s.states rec.seq state }.runOrWait page rec
  | .ordered id =>
    let found (d : Nat × FetchState) := if d.1 = id then (id,state) else d
    { s with orderedDynamic := s.orderedDynamic.map found }.runOrderedDynamic page
  | .dynamic id counted => (s.exec page (.dynamic id) success).release page counted

/-- The page sees `load`, or `error` and the exception. -/
def onModule (module : Module) (success : Bool) : Document :=
  let settle (who : Who) : Document :=
    (s.note (.finished who success)).insertAll (page.inserts (.script who))
  match module with
  | .deferred rec =>
    let next := settle (.parser rec)
    { next with deferRunning := false,timers := next.timers ++ [Timer.runDeferred] }
  | .async rec => (settle (.parser rec)).release page true
  | .dynamic id counted => (settle (.dynamic id)).release page counted

def onTask (task : Task) : Document :=
  match task with
  | .run rec => s.runAsync page rec
  | .error rec => s.exec page (.parser rec) false
  | .load => s.note .load

def onTimer (timer : Timer) : Document :=
  match timer with
  | .pumpParser => s.pumpParser page
  | .runDeferred => s.runDeferred page

end Document

/-- Timers, fetches and promises are taken by their place among the open ones, tasks in turn. -/
inductive Action where
  | timer (i : Nat) (page : Page)
  | task (page : Page)
  | fetched (i : Nat) (success : Bool) (page : Page)
  | moduleDone (i : Nat) (success : Bool) (page : Page)
  | page (inserted : List Dynamic)
  | resourcesLoaded (page : Page)

namespace Document

def records (scripts : List Element) : List Record :=
  scripts.zipIdx.map fun (script,i) => { script with seq := i + 1 }

def step (s : Document) : Action → Option Document
  | .timer i page => s.timers[i]?.map fun timer => { s with timers := s.timers.eraseIdx i }.onTimer page timer
  | .task page =>
    match s.tasks with
    | [] => none
    | task :: rest => some ({ s with tasks := rest }.onTask page task)
  | .fetched i success page => s.fetches[i]?.map fun fetch =>
      { s with fetches := s.fetches.eraseIdx i }.onFetched page fetch success
  | .moduleDone i success page => s.modules[i]?.map fun module =>
      { s with modules := s.modules.eraseIdx i }.onModule page module success
  | .page inserted => some (s.insertAll inserted)
  | .resourcesLoaded page => some (s.maybeFireLoad page)

end Document

end Sharko.Script.PageScripts
