import Mathlib
import Sharko.Library.FiniteMap
import Sharko.Library.Runs

/-! The module loader of `modules.rs`. -/

namespace Sharko.Script.Modules

open Library

inductive Entry (Mod Err : Type)
  | fetching
  | ready (m : Mod)
  | failed (e : Err)

structure Job (Url : Type) where
  id : ℕ
  root : Url

inductive Outcome (Err : Type)
  | loaded
  | failed (e : Err)

inductive GraphState (Err : Type)
  | pending
  | failed (e : Err)
  | ready

structure Response (Source : Type) where
  error : Bool
  status : ℕ
  contentType : Option String
  body : Source

/-- What the loader uses of V8, of the page and of the rest of the runtime. The environment is the base
URL of the document, its import map and its blobs. -/
structure Engine (Url Source Mod Err Env : Type) where
  compile : Url → Source → Except Err Mod
  requests : Mod → List String
  resolve : Env → Url → String → Except Err Url
  isBlob : Url → Bool
  /-- The source of a blob, unless it is gone or of another type. -/
  resolveBlob : Env → Url → Except Err Source
  isJsMime : String → Bool
  fetchError : Url → Err

variable {Url Source Mod Err Env : Type} [DecidableEq Url] (v8 : Engine Url Source Mod Err Env)

/-- The loader with what it is in the midst of. It starts fetches (the calls within
`compile_and_register`), then adds the job of `load` and calls `advance`, whose loop is at a job. -/
structure Loader (Url Mod Err Env : Type) where
  env : Env
  map : FiniteMap Url (Entry Mod Err)
  fetches : List (ℕ × Url)
  jobs : List (Job Url)
  nextFetch : ℕ
  starting : List Url
  after : Option (Option (Job Url))
  scanning : Option ℕ
  requested : List Url
  settled : List (Job Url × Outcome Err)
  loads : ℕ

def deps (env : Env) (url : Url) (m : Mod) : List Url :=
  (v8.requests m).filterMap fun spec => (v8.resolve env url spec).toOption

/-- The loop of `graph_state`. -/
def graphWalk (env : Env) (map : FiniteMap Url (Entry Mod Err)) (visited : Finset Url) (pending : Bool) :
    List Url → GraphState Err
  | [] => if pending then .pending else .ready
  | url :: stack =>
    if url ∈ visited then graphWalk env map visited pending stack
    else
      match _found : map.lookup url with
      | none | some .fetching => graphWalk env map (insert url visited) true stack
      | some (.failed e) => .failed e
      | some (.ready m) => graphWalk env map (insert url visited) pending ((deps v8 env url m).reverse ++ stack)
termination_by stack => ((map.keys \ visited).card,stack.length)
decreasing_by
  · exact Prod.Lex.right _ (Nat.lt_succ_self _)
  all_goals
    by_cases known : url ∈ map.keys
    · refine Prod.Lex.left _ _ (Finset.card_lt_card ?_)
      rw [Finset.sdiff_insert]
      exact Finset.erase_ssubset (Finset.mem_sdiff.mpr ⟨known,by assumption⟩)
    · first
      | exact absurd (Finmap.mem_keys.mpr (Finmap.mem_of_lookup_eq_some _found)) known
      | rw [Finset.sdiff_insert,Finset.erase_eq_of_notMem fun mem => known (Finset.mem_sdiff.mp mem).1]
        exact Prod.Lex.right _ (Nat.lt_succ_self _)

def graphState (env : Env) (map : FiniteMap Url (Entry Mod Err)) (root : Url) : GraphState Err :=
  graphWalk v8 env map ∅ false [root]

namespace Loader

variable (s : Loader Url Mod Err Env)

def register (url : Url) (entry : Entry Mod Err) : Loader Url Mod Err Env := {s with map := s.map.insert url entry}

def compileAndRegister (url : Url) (source : Source) : Loader Url Mod Err Env :=
  match v8.compile url source with
  | .error e => s.register url (.failed e)
  | .ok m =>
    match (v8.requests m).mapM (v8.resolve s.env url) with
    | .error e => s.register url (.failed e)
    | .ok found => {s.register url (.ready m) with starting := found ++ s.starting}

def startFetch (url : Url) : Loader Url Mod Err Env :=
  if url ∈ s.map then s
  else if v8.isBlob url then
    match v8.resolveBlob s.env url with
    | .ok source => s.compileAndRegister v8 url source
    | .error e => s.register url (.failed e)
  else {s.register url .fetching with
    nextFetch := s.nextFetch + 1
    fetches := s.fetches ++ [(s.nextFetch,url)]
    requested := s.requested ++ [url]}

def load (url : Url) (source : Option Source) : Loader Url Mod Err Env :=
  let s := {s with after := some (some ⟨s.loads,url⟩), loads := s.loads + 1}
  match source with
  | some source => if url ∈ s.map then s else s.compileAndRegister v8 url source
  | none => s.startFetch v8 url

def onFetchResponse (id : ℕ) (resp : Response Source) : Loader Url Mod Err Env :=
  match s.fetches.find? (·.1 = id) with
  | none => s
  | some (_,url) =>
    let s := {s with fetches := s.fetches.filter (·.1 ≠ id), after := some none}
    if resp.error ∨ resp.status < 200 ∨ 300 ≤ resp.status then s.register url (.failed (v8.fetchError url))
    else if resp.contentType.any (!v8.isJsMime ·) then s.register url (.failed (v8.fetchError url))
    else s.compileAndRegister v8 url resp.body

/-- A turn of `advance_jobs`. -/
def advanceJob (i : ℕ) : Loader Url Mod Err Env :=
  match s.jobs[i]? with
  | none => {s with scanning := none}
  | some job =>
    match graphState v8 s.env s.map job.root with
    | .pending => {s with scanning := some (i + 1)}
    | .failed e => {s with jobs := s.jobs.eraseIdx i, settled := s.settled ++ [(job,.failed e)]}
    | .ready =>
      match s.map.lookup job.root with
      | some (.ready _) => {s with jobs := s.jobs.eraseIdx i, settled := s.settled ++ [(job,.loaded)]}
      | _ => {s with jobs := s.jobs.eraseIdx i}

/-- Page code runs between tasks and in the evaluation of a module. -/
def Page : Prop := s.starting = [] ∧ s.after.isNone

inductive Action (Url Source Env : Type)
  | load (url : Url) (source : Option Source)
  | respond (id : ℕ) (resp : Response Source)
  /-- The page changes its base URL, its address or its blobs. -/
  | change (env : Env)
  | go

instance : Decidable s.Page := inferInstanceAs (Decidable (_ ∧ _))

def go : Option (Loader Url Mod Err Env) :=
  match s.starting,s.after,s.scanning with
  | url :: urls,_,_ => some ({s with starting := urls}.startFetch v8 url)
  | [],some (some job),_ => some {s with jobs := s.jobs ++ [job], after := some none}
  | [],some none,scanning => some {s with after := none, scanning := scanning.or (some 0)}
  | [],none,some i => some (s.advanceJob v8 i)
  | [],none,none => none

def step : Action Url Source Env → Option (Loader Url Mod Err Env)
  | .load url source => if s.Page then some (s.load v8 url source) else none
  | .respond id resp => if s.Page ∧ s.scanning.isNone then some (s.onFetchResponse v8 id resp) else none
  | .change env => if s.Page then some {s with env} else none
  | .go => s.go v8

def start (env : Env) : Loader Url Mod Err Env := ⟨env,∅,[],[],1,[],none,none,[],[],0⟩

end Loader

end Sharko.Script.Modules
