import Mathlib.Logic.Function.Basic
import Sharko.Netstack.Cache.Sections

/-! The cache with its readers and its writer thread (`crates/netstack/src/cache`):
callers run the critical sections and hand jobs to a channel, one writer thread
works them off in order, and a lookup that goes to the disk reads its file
between two of its critical sections. Which reads, writes and deletes fail is up
to the action. `log` records what was stored, asked, answered and invalidated; a
lookup is named by the length of the log at its index step. -/

namespace Sharko.Netstack.Cache
open Library

inductive Job where
  | write (vkey : Key) (generation : Generation) (value : StoredResponse)
  | delete (paths : List Path)
  | saveIndex (snapshot : IndexSnapshot)
deriving DecidableEq

/-- What the writer thread does between two of its steps. -/
inductive Writer where
  | idle
  | wrote (vkey : Key) (generation : Generation) (value : StoredResponse) (result : Option Nat)
  | deleting (paths : List Path)
deriving DecidableEq

inductive ReadResult where
  | stored (response : StoredResponse)
  | unreadable
  | failed
deriving DecidableEq

/-- A lookup that has released the lock to read its file. -/
structure Read where
  id : Nat
  target : String
  vkey : Key
  vary : VaryValues
  generation : Generation
  result : Option ReadResult
deriving DecidableEq

inductive Event where
  | stored (vkey : Key) (generation : Generation) (value : StoredResponse)
  | asked (vkey : Key) (target : String) (vary : VaryValues)
  | answered (id : Nat) (answer : Option StoredResponse)
  | invalidated (url : Url)
deriving DecidableEq

structure System extends HttpCache where
  files : Path → Option EntryFile
  cleanup : Option (Path → Bool)
  queue : List Job
  outbox : List (List Job)
  writer : Writer
  reads : List Read
  log : List Event

inductive Outcome where
  | intact
  | unreadable
  | failed
deriving DecidableEq

inductive Action where
  | lookup (url : Url) (credentials : Bool) (request : HeaderMap)
  | read (id : Nat) (outcome : Outcome)
  | resume (id : Nat)
  | store (url : Url) (credentials : Bool) (request : HeaderMap) (varyNames : List String)
      (response : StoredResponse)
  | invalidate (url : Url)
  | saveIndex
  | send (caller : Nat)
  | cleanup (stuck : List Path)
  | write (metaLen : Option Nat)
  | done
  | beginDelete
  | delete (removed : Bool)
  | persist (written : Bool)

namespace System

def deleteJobs (paths : List Path) : List Job := if paths.isEmpty then [] else [.delete paths]

def known (index : Index) (p : Path) : Bool :=
  ((index.entries.lookup p.1).bind Entry.disk).any fun d => d.generation == p.2

def opened (dir : Bool) (memoryBudget diskBudget : Nat) (saved : Option IndexSnapshot)
    (files : Path → Option EntryFile) : System :=
  let limits := Limits.ofBudgets memoryBudget diskBudget
  if dir then
    let loaded := Index.load (Index.loadIndex saved)
    let (index,deletes) := loaded.evictDisk limits []
    ⟨⟨index,true,limits,saved⟩,files,some (known loaded),deleteJobs deletes,[],.idle,[],[]⟩
  else ⟨⟨Index.new,false,limits,saved⟩,files,none,[],[],.idle,[],[]⟩

def answer (s : System) (id : Nat) (answer : Option StoredResponse) : System :=
  {s with log := s.log ++ [.answered id answer]}

def readFile (files : Path → Option EntryFile) (path : Path) : Outcome → ReadResult
  | .intact => (files path).elim .unreadable fun f => .stored (readEntry f)
  | .unreadable => .unreadable
  | .failed => .failed

def finishRead (s : System) (id : Nat) (outcome : Outcome) (r : Read) : Read :=
  if r.id = id ∧ r.result = none then
    {r with result := some (readFile s.files (r.vkey,r.generation) outcome)}
  else r

def resume (s : System) (r : Read) : ReadResult → System
  | .stored response =>
    if response.url = r.target ∧ response.vary = r.vary then
      let (index,deletes) := s.index.promote s.limits s.disk r.vkey r.generation response
      {s with index := index, outbox := s.outbox ++ [deleteJobs deletes]}.answer r.id (some response)
    else s.answer r.id none
  | .unreadable =>
    let (index,deletes) := s.index.dropUnreadable r.vkey r.generation
    {s with index := index, outbox := s.outbox ++ [deleteJobs deletes]}.answer r.id none
  | .failed => s.answer r.id none

variable (digest128 : List UInt8 → Key)

def lookup (s : System) (url : Url) (credentials : Bool) (request : HeaderMap) : System :=
  let primary := primaryKey digest128 url credentials
  let id := s.log.length
  match s.index.variantOf digest128 primary request with
  | none => s.answer id none
  | some (vkey,vary) =>
    let (decision,index) := s.index.lookup digest128 primary url.target request
    let s : System := {s with index := index, log := s.log ++ [.asked vkey url.target vary]}
    match decision with
    | .miss => s.answer id none
    | .hit value => s.answer id (some value)
    | .read vkey vary generation =>
      if s.disk then {s with reads := s.reads ++ [⟨id,url.target,vkey,vary,generation,none⟩]}
      else s.answer id none

def store (s : System) (url : Url) (credentials : Bool) (request : HeaderMap)
    (varyNames : List String) (response : StoredResponse) : System :=
  let value := response.filed url varyNames request
  let vkey := storeKey digest128 url credentials request varyNames
  let (index,deletes,write) := s.index.store s.limits s.disk (primaryKey digest128 url credentials)
    varyNames vkey value
  let writes := (write.map fun generation => Job.write vkey generation value).toList
  {s with index := index, outbox := s.outbox ++ [deleteJobs deletes ++ writes],
          log := s.log ++ [.stored vkey s.index.generation.1 value]}

def performWrite (s : System) (vkey : Key) (generation : Generation) (value : StoredResponse)
    (rest : List Job) (metaLen : Option Nat) : System :=
  let files := if metaLen.isSome then
      Function.update s.files (vkey,generation) (some (writeEntry value))
    else s.files
  let result := metaLen.map fun n => 8 + n + value.body.length
  {s with queue := rest, files := files, writer := .wrote vkey generation value result}

def finishWrite (s : System) (vkey : Key) (generation : Generation) (result : Option Nat) : System :=
  let (index,deletes) := s.index.onWriteDone s.limits vkey generation result
  {s with index := index, writer := .deleting deletes}

def step (s : System) : Action → Option System
  | .lookup url credentials request => some (s.lookup digest128 url credentials request)
  | .read id outcome => some {s with reads := s.reads.map (s.finishRead id outcome)}
  | .resume id =>
    match s.reads.find? fun r => r.id == id with
    | none => none
    | some r => r.result.map ({s with reads := s.reads.filter fun r => r.id != id}.resume r)
  | .store url credentials request varyNames response =>
    some (s.store digest128 url credentials request varyNames response)
  | .invalidate url =>
    let (index,deletes) := Index.invalidate digest128 s.index url s.disk
    some {s with
      index := index
      outbox := s.outbox ++ [deleteJobs deletes]
      log := s.log ++ [.invalidated url]}
  | .saveIndex =>
    if s.disk then
      some {s with index := s.index.snapshot.2, outbox := s.outbox ++ [[.saveIndex s.index.snapshot.1]]}
    else some s
  | .send caller =>
    match s.outbox[caller]? with
    | some (job :: rest) => some {s with outbox := s.outbox.set caller rest, queue := s.queue ++ [job]}
    | _ => none
  | .cleanup stuck =>
    match s.writer,s.cleanup with
    | .idle,some keep =>
      some {s with files := fun p => if keep p || stuck.contains p then s.files p else none,
                   cleanup := none}
    | _,_ => none
  | .write metaLen =>
    match s.writer,s.cleanup,s.queue with
    | .idle,none,.write vkey generation value :: rest =>
      some (s.performWrite vkey generation value rest metaLen)
    | _,_,_ => none
  | .done =>
    match s.writer with
    | .wrote vkey generation _ result => some (s.finishWrite vkey generation result)
    | _ => none
  | .beginDelete =>
    match s.writer,s.cleanup,s.queue with
    | .idle,none,.delete paths :: rest => some {s with queue := rest, writer := .deleting paths}
    | _,_,_ => none
  | .delete removed =>
    match s.writer with
    | .deleting [] => some {s with writer := .idle}
    | .deleting (path :: rest) =>
      let files := if removed then Function.update s.files path none else s.files
      some {s with files := files, writer := .deleting rest}
    | _ => none
  | .persist written =>
    match s.writer,s.cleanup,s.queue with
    | .idle,none,.saveIndex snapshot :: rest =>
      some {s with queue := rest, saved := if written then some snapshot else s.saved}
    | _,_,_ => none

end System

namespace Sample

def key : Key := primaryKey digest page true

def small : StoredResponse := response [7]

def large : StoredResponse := response (List.replicate 300 9)

def restarted : System :=
  System.opened true 3200 8000 (some ⟨1,[⟨key,key,1,50⟩],[]⟩)
    (Function.update (fun _ => none) (key,1) (some (writeEntry (small.filed page [] []))))

end Sample

end Sharko.Netstack.Cache
