import Sharko.Script.IndexedDb.Stores
import Sharko.Script.IndexedDb.Connections

/-! The transactions of one database, their scheduling by scope and mode, and the end of a
transaction: commit, abort and what waits for them. -/

namespace Sharko.Script.IndexedDb

inductive Mode where
  | readonly
  | readwrite
  | versionchange
  deriving DecidableEq

inductive TxState where
  | active
  | inactive
  | committing
  | finished
  deriving DecidableEq

/-- Where a request looks: a store, or one of its indexes. -/
structure Source where
  store : Nat
  index : Option Nat
  deriving DecidableEq

inductive AllKind where
  | key
  | value
  | record
  deriving DecidableEq

/-- What a request of a transaction does when its turn comes. -/
inductive Op where
  | get (source : Source) (range : Option KeyRange) (keyOnly : Bool)
  | getAll (source : Source) (kind : AllKind) (range : Option KeyRange) (dir : Direction)
    (limit : Nat)
  | count (source : Source) (range : Option KeyRange)
  | iterate (cursor : Nat) (key pk : Option Key) (count : Nat)
  | delete (store : Nat) (range : Option KeyRange)
  | record (store : Nat) (value : Value) (key : Option Key) (noOverwrite : Bool)
  | populate (store index : Nat)
  | unmaintain (store index : Nat)

structure Item where
  id : Nat
  req : Option Nat
  op : Op

inductive Undo where
  | store (s : Nat) (u : StoreUndo)
  | setVersion (old : Nat)
  | dropStore (name : Text) (s : Nat)
  | restoreStore (name : Text) (s : Nat)
  | renameStore (s : Nat) (name old : Text)

structure Tx where
  conn : Nat
  mode : Mode
  scope : Option (List Nat)
  state : TxState
  queue : List Item
  undo : List Undo
  error : Option DomError
  aborted : Bool
  handles : List Source
  scheduled : Bool
  seq : Nat
  hold : Bool
  pendingAbort : Option DomError
  dirty : Bool
  openReq : Option Nat
  oldVersion : Nat

structure Cursor where
  tx : Nat
  req : Nat
  source : Source
  direction : Direction
  range : Option KeyRange
  keyOnly : Bool
  position : Option Key
  objPos : Option Key
  key : Option Key
  pk : Option Key
  value : Option Value
  gotValue : Bool

structure Database where
  version : Nat
  stores : Text → Option Nat

/-- What transactions change: the database and its stores, whose objects outlive their names. -/
structure Content where
  database : Option Database
  store : Nat → StoreData

/-- What a request yields. -/
inductive Result where
  | undefined
  | key (k : Key)
  | value (v : Value)
  | keys (ks : List Key)
  | values (vs : List Value)
  | records (rs : List (Key × Key × Value))
  | count (n : Nat)
  | cursor (found : Option (Key × Key × Option Value))
  deriving DecidableEq

inductive Query where
  | get (keyOnly : Bool)
  | getAll (kind : AllKind) (dir : Direction) (limit : Nat)
  | count
  | openCursor (dir : Direction) (keyOnly : Bool)
  | delete
  deriving DecidableEq

/-- What a value is cloned for: a record of a store, or the record at a cursor. -/
inductive Target where
  | put (s : Nat) (noOverwrite : Bool) (key : Option Key)
  | update (cursor : Nat)
  deriving DecidableEq

/-- The frames of the page's stack below which its code runs, each of a transaction `t`. -/
inductive Frame where
  /-- An item at work, with the length of the undo log before it. -/
  | running (t : Nat) (item : Item) (mark : Nat)
  | dispatched (t : Nat) (error : Option DomError)
  | completing (t : Nat)
  | aborting (t : Nat)
  | upgrading (t : Nat)
  /-- `toRange` of a query. -/
  | querying (t : Nat) (source : Source) (query : Query)
  | keying (t s : Nat) (noOverwrite : Bool)
  | cloning (t : Nat) (target : Target) (prev : TxState)
  | extracting (t : Nat) (target : Target) (value : Value)
  | continuing (t cursor : Nat) (primary : Bool)
  /-- The options of `createIndex`. -/
  | indexOptions (t s : Nat) (name : Text) (kp : KeyPath)
  /-- `keyPath` and then `autoIncrement` of the options of `createObjectStore`. -/
  | storeKeyPath (t : Nat) (name : Text)
  | storeOptions (t : Nat) (name : Text) (kp : Option KeyPath)

inductive Task where
  | step (t : Nat)
  | settle (t : Nat) (item : Item)
  | aborted (t : Nat)
  | upgradeNeeded (t : Nat)
  | connection (k : ConnTask)

inductive Event where
  | placed (t : Nat) (item : Item) (state : TxState)
  | performed (t : Nat) (item : Item) (outcome : Except DomError Result)
  | settled (t : Nat) (item : Item) (outcome : Except DomError Result)
  | ended (t : Nat) (aborted : Bool)
  | requested (request : ConnRequest)
  | started (request : ConnRequest)
  | answered (req : Nat)
  | thrown (error : DomError)

structure World where
  content : Content
  cursor : Nat → Cursor
  blobs : Blobs
  nextRow : Nat
  nextIndex : Nat
  nextStore : Nat
  nextCursor : Nat
  nextItem : Nat
  nextReq : Nat
  /-- The transactions that are not finalized, in creation order. -/
  txs : List Nat
  tx : Nat → Tx
  nextTx : Nat
  upgradeTx : Option Nat
  connections : Connections
  tasks : List Task
  seq : Nat
  frames : List Frame
  log : List Event

namespace World

variable (σ : World)

def setTx (t : Nat) (tx : Tx) : World := { σ with tx := Function.update σ.tx t tx }

def later (task : Task) : World := { σ with tasks := σ.tasks ++ [task],seq := σ.seq + 1 }

def laters (tasks : List Task) : World :=
  { σ with tasks := σ.tasks ++ tasks,seq := σ.seq + tasks.length }

def push (frame : Frame) : World := { σ with frames := frame :: σ.frames }

def record (event : Event) : World := { σ with log := σ.log ++ [event] }

def connect (change : Connections × List ConnTask) : World :=
  { σ with connections := change.1 }.laters (change.2.map .connection)

def overlaps (a b : Tx) : Bool :=
  match a.scope,b.scope with
  | some a,some b => a.any fun s => s ∈ b
  | _,_ => true

def conflicts (t tx : Tx) : Bool :=
  overlaps t tx && (tx.mode ≠ .readonly || t.mode ≠ .readonly)

/-- A transaction waits for the earlier, unfinished ones that it conflicts with. -/
def canStartAmong (t : Nat) : List Nat → Bool
  | [] => true
  | u :: rest =>
    if u = t then true
    else if conflicts (σ.tx u) (σ.tx t) then false
    else canStartAmong t rest

def canStart (t : Nat) : Bool := σ.canStartAmong t σ.txs

def schedule (t : Nat) : World :=
  if (σ.tx t).scheduled then σ
  else
    let σ := σ.later (.step t)
    σ.setTx t { σ.tx t with scheduled := true,seq := σ.seq }

def pumpDb : World :=
  σ.txs.foldl (fun σ t => if (σ.tx t).state ≠ .finished then σ.schedule t else σ) σ

def createTx (c : Nat) (mode : Mode) (scope : Option (List Nat)) : World :=
  let t := σ.nextTx
  { σ with
    tx := Function.update σ.tx t
      { conn := c,mode,scope,state := .active,queue := [],undo := [],error := none
        aborted := false,handles := [],scheduled := false,seq := 0,hold := false
        pendingAbort := none,dirty := false,openReq := none,oldVersion := 0 }
    nextTx := t + 1
    txs := σ.txs ++ [t]
    connections := σ.connections.addTx c t }

end World

def Content.setStore (c : Content) (s : Nat) (store : StoreData) : Content :=
  { c with store := Function.update c.store s store }

def Content.rename (c : Content) (change : (Text → Option Nat) → Text → Option Nat) : Content :=
  { c with database := c.database.map fun data => { data with stores := change data.stores } }

def Content.revert (c : Content) : Undo → Content
  | .store s u => c.setStore s (IndexedDb.revert (c.store s) u)
  | .setVersion old => { c with database := c.database.map fun data => { data with version := old } }
  | .dropStore name s =>
    (c.rename fun stores => Function.update stores name none).setStore s
      { c.store s with deleted := true }
  | .restoreStore name s =>
    (c.rename fun stores => Function.update stores name (some s)).setStore s
      { c.store s with deleted := false }
  | .renameStore s name old =>
    (c.rename fun stores => Function.update (Function.update stores name none) old (some s)).setStore
      s { c.store s with name := old }

namespace World

variable (σ : World)

def rollback (t mark : Nat) : World :=
  let undo := (σ.tx t).undo
  let count := undo.length - mark
  { σ with content := (undo.take count).foldl Content.revert σ.content }.setTx t
    { σ.tx t with undo := undo.drop count }

/-- Once an upgrade transaction is over its scope no longer follows the database: it is the
list of the stores below the number of stores made so far that the database names. -/
def freezeScope (t : Nat) : World :=
  let scope :=
    match σ.content.database with
    | none => []
    | some data => (List.range σ.nextStore).filter fun s => data.stores (σ.content.store s).name = some s
  σ.setTx t { σ.tx t with scope := some scope }

/-- "Abort an upgrade transaction": a database that was new goes away. -/
def abortUpgrade (t : Nat) : World :=
  let c := (σ.tx t).conn
  match σ.content.database with
  | none =>
    { σ with connections := σ.connections.setConn c { σ.connections.conn c with version := 0 } }
  | some data =>
    let σ := { σ with
      connections := σ.connections.setConn c
        { σ.connections.conn c with version := data.version } }
    if data.version = 0 then { σ with content := { σ.content with database := none } } else σ

def abortTx (t : Nat) (error : Option DomError) : World :=
  if (σ.tx t).state = .finished then σ
  else
    let σ := σ.setTx t { σ.tx t with aborted := true }
    let σ := σ.rollback t 0
    let σ := if (σ.tx t).mode = .versionchange then (σ.abortUpgrade t).freezeScope t else σ
    let pending := (σ.tx t).queue
    let σ := σ.setTx t { σ.tx t with state := .finished,error,queue := [] }
    let σ := σ.laters ((pending.filter fun item => item.req.isSome).map (.settle t))
    σ.later (.aborted t)

def finishUpgrade (t : Nat) : World :=
  let tx := σ.tx t
  match tx.openReq with
  | none => σ
  | some req =>
    let σ := σ.setTx t { tx with openReq := none }
    if tx.aborted then
      let σ := σ.connect (σ.connections.closeConn tx.conn)
      σ.connect (σ.connections.finishOpen req none)
    else if (σ.connections.conn tx.conn).closePending then
      σ.connect (σ.connections.finishOpen req none)
    else σ.connect (σ.connections.finishOpen req (some tx.conn))

def finalizeTx (t : Nat) : World :=
  let c := (σ.tx t).conn
  let σ := { σ with txs := σ.txs.erase t,connections := σ.connections.removeTx c t }
  let σ := (σ.finishUpgrade t).pumpDb
  σ.connect (σ.connections.maybeClosed c)

def commitTx (t : Nat) (backend : Option DomError) : World :=
  match (if (σ.tx t).dirty then backend else none) with
  | some error => σ.abortTx t (some error)
  | none =>
    let σ := σ.setTx t { σ.tx t with undo := [] }
    let σ := if (σ.tx t).mode = .versionchange then { σ with upgradeTx := none }.freezeScope t else σ
    let σ := σ.setTx t { σ.tx t with state := .finished }
    (σ.record (.ended t false)).push (.completing t)

end World

end Sharko.Script.IndexedDb
