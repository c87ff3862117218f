import Sharko.Script.IndexedDb.Performing

/-! The engine of one database: the timers it runs, the calls of the page and the code of the
page that runs inside them. Whatever the page's code does happens as calls of its own before the
frame below gets its reply. -/

namespace Sharko.Script.IndexedDb

/-- What a method of the interfaces is called with, its conversions by the page's code apart. -/
inductive Call where
  | openDb (version : Option Nat)
  | deleteDb
  | close (c : Nat)
  | transaction (c : Nat) (names : List Text) (mode : Mode)
  | objectStore (t : Nat) (name : Text)
  | index (t s : Nat) (name : Text)
  | commit (t : Nat)
  | abort (t : Nat)
  | query (t : Nat) (source : Source) (query : Query)
  | clear (t s : Nat)
  | put (t s : Nat) (noOverwrite keyGiven : Bool)
  | advance (cursor count : Nat)
  | continue (cursor : Nat) (keyGiven : Bool)
  | continuePrimaryKey (cursor : Nat)
  | update (cursor : Nat)
  | deleteAt (cursor : Nat)
  | createObjectStore (c : Nat) (name : Text)
  | deleteObjectStore (c : Nat) (name : Text)
  | renameStore (t s : Nat) (name : Text)
  | createIndex (t s : Nat) (name : Text) (keyPath : KeyPath)
  | deleteIndex (t s : Nat) (name : Text)
  | renameIndex (t s i : Nat) (name : Text)

/-- How the page's code below the top frame returns. -/
inductive Reply where
  | failed
  | done
  | range (range : Option KeyRange)
  | key (k : Key)
  | keys (k pk : Key)
  | clone (value : Value)
  | keyPath (kp : Option KeyPath)
  | autoIncrement (v : Bool)
  | options (unique multiEntry : Bool)
  | event (threw canceled : Bool)

inductive Action where
  | call (call : Call)
  | reply (reply : Reply)
  | turn (backend : Option DomError)
  | pageTimer
  | touch (blobs : Blobs)

def domErr (name : String) (message : String) : DomError := ⟨name,text message⟩

def failedTo (method iface : String) : String :=
  "Failed to execute '" ++ method ++ "' on '" ++ iface ++ "'"

def Source.iface (source : Source) : String :=
  if source.index.isSome then "IDBIndex" else "IDBObjectStore"

def Query.method : Query → String
  | .get keyOnly => if keyOnly then "getKey" else "get"
  | .getAll .key _ _ => "getAllKeys"
  | .getAll .value _ _ => "getAll"
  | .getAll .record _ _ => "getAllRecords"
  | .count => "count"
  | .openCursor _ keyOnly => if keyOnly then "openKeyCursor" else "openCursor"
  | .delete => "delete"

namespace World

variable (σ : World)

def placeItem (t : Nat) (op : Op) (req : Option Nat) : World :=
  let item : Item := ⟨σ.nextItem,req,op⟩
  let σ := { σ with nextItem := σ.nextItem + 1 }.record (.placed t item (σ.tx t).state)
  (σ.setTx t { σ.tx t with queue := (σ.tx t).queue ++ [item] }).schedule t

def execute (t : Nat) (op : Op) : World :=
  { σ with nextReq := σ.nextReq + 1 }.placeItem t op (some σ.nextReq)

def hasFinished (t : Nat) : String :=
  if (σ.tx t).state = .finished then "has finished" else "is not active"

def preflight (t : Nat) (source : Source) (method : String) (write : Bool) : Except DomError Unit :=
  let w := failedTo method source.iface
  let store := σ.content.store source.store
  if store.deleted || source.index.any fun i => (store.index i).deleted then
    .error (domErr "InvalidStateError" (w ++ ": The " ++
      (if source.index.isSome then "index or its object store" else "object store") ++
      " has been deleted."))
  else if (σ.tx t).state ≠ .active then
    .error (domErr "TransactionInactiveError" (w ++ ": The transaction " ++ σ.hasFinished t ++ "."))
  else if write ∧ (σ.tx t).mode = .readonly then
    .error (domErr "ReadOnlyError" (w ++ ": The transaction is read-only."))
  else .ok ()

def cursorLive (c : Cursor) (w : String) : Except DomError Unit :=
  let store := σ.content.store c.source.store
  if store.deleted || c.source.index.any fun i => (store.index i).deleted then
    .error (domErr "InvalidStateError"
      (w ++ ": The cursor's source or effective object store has been deleted."))
  else if !c.gotValue then
    .error (domErr "InvalidStateError"
      (w ++ ": The cursor is being iterated or has iterated past its end."))
  else .ok ()

def cursorCheck (c : Cursor) (method : String) (needsIndex : Bool) : Except DomError Unit :=
  let w := failedTo method "IDBCursor"
  let store := σ.content.store c.source.store
  if (σ.tx c.tx).state ≠ .active then
    .error (domErr "TransactionInactiveError"
      (w ++ ": The transaction " ++ σ.hasFinished c.tx ++ "."))
  else if store.deleted || c.source.index.any fun i => (store.index i).deleted then
    .error (domErr "InvalidStateError"
      (w ++ ": The cursor's source or effective object store has been deleted."))
  else if needsIndex ∧ c.source.index = none then
    .error (domErr "InvalidAccessError" (w ++ ": The cursor's source is not an index."))
  else if needsIndex ∧ c.direction ≠ .next ∧ c.direction ≠ .prev then
    .error (domErr "InvalidAccessError" (w ++ ": The cursor's direction is not 'next' or 'prev'."))
  else σ.cursorLive c w

def cursorWrite (c : Cursor) (method verb : String) : Except DomError Unit :=
  let w := failedTo method "IDBCursor"
  if (σ.tx c.tx).state ≠ .active then
    .error (domErr "TransactionInactiveError"
      (w ++ ": The transaction " ++ σ.hasFinished c.tx ++ "."))
  else if (σ.tx c.tx).mode = .readonly then
    .error (domErr "ReadOnlyError"
      (w ++ ": The record may not be " ++ verb ++ " inside a read-only transaction."))
  else do
    σ.cursorLive c w
    if c.keyOnly then .error (domErr "InvalidStateError" (w ++ ": The cursor is a key cursor."))
    else .ok ()

def moveCursor (t id : Nat) (key pk : Option Key) (count : Nat) : World :=
  let c := σ.cursor id
  { σ with cursor := Function.update σ.cursor id { c with gotValue := false } }.placeItem t
    (.iterate id key pk count) (some c.req)

def openCursor (t : Nat) (source : Source) (range : Option KeyRange) (direction : Direction)
    (keyOnly : Bool) : World :=
  let id := σ.nextCursor
  let c : Cursor :=
    { tx := t,req := σ.nextReq,source,direction,range,keyOnly,position := none,objPos := none
      key := none,pk := none,value := none,gotValue := false }
  { σ with cursor := Function.update σ.cursor id c,nextCursor := id + 1 }.execute t
    (.iterate id none none 1)

def runQuery (t : Nat) (source : Source) (range : Option KeyRange) : Query → World
  | .get keyOnly => σ.execute t (.get source range keyOnly)
  | .getAll kind dir limit => σ.execute t (.getAll source kind range dir limit)
  | .count => σ.execute t (.count source range)
  | .openCursor dir keyOnly => σ.openCursor t source range dir keyOnly
  | .delete => σ.execute t (.delete source.store range)

def cloneInTx (t : Nat) (target : Target) : World :=
  (σ.setTx t { σ.tx t with state := .inactive }).push (.cloning t target (σ.tx t).state)

def endClone (t : Nat) (prev : TxState) : World :=
  if (σ.tx t).state = .inactive then σ.setTx t { σ.tx t with state := prev } else σ

def inlineKey (s : Nat) (noOverwrite : Bool) (key : Option Key) (value : Value) (kp : KeyPath) :
    Except DomError (Option Key) :=
  let w := failedTo (if noOverwrite then "add" else "put") "IDBObjectStore"
  let graph := value.read σ.blobs
  match extractKey graph kp false with
  | .invalid => .error (domErr "DataError"
      (w ++ ": Evaluating the object store's key path yielded a value that is not a valid key."))
  | .key k => .ok (some k)
  | .failure =>
    if !(σ.content.store s).autoIncrement then .error (domErr "DataError"
      (w ++ ": Evaluating the object store's key path did not yield a value."))
    else
      match kp with
      | .one path =>
        if canInjectKey graph path then .ok key
        else .error (domErr "DataError" (w ++
          ": A generated key could not be inserted into the value at the object store's key path."))
      | .many _ => .ok key

def sameKey (c : Cursor) (value : Value) (kp : KeyPath) : Except DomError Unit :=
  let failure : DomError := domErr "DataError" (failedTo "update" "IDBCursor" ++
    (": The effective object store of this cursor uses in-line keys and evaluating the key path of" ++
    " the value parameter results in a different value than the cursor's effective key."))
  match extractKey (value.read σ.blobs) kp false,c.pk with
  | .key k,some pk => if cmpKeys k pk == .eq then .ok () else .error failure
  | _,_ => .error failure

def ahead (c : Cursor) (k : Key) : Except DomError Unit :=
  let forward := c.direction = .next ∨ c.direction = .nextunique
  let cmp := c.position.elim .gt (cmpKeys k)
  if (forward ∧ cmp ≠ .gt) ∨ (¬forward ∧ cmp ≠ .lt) then
    .error (domErr "DataError" (failedTo "continue" "IDBCursor" ++
      ": The parameter is less than or equal to this cursor's position."))
  else .ok ()

def aheadPrimary (c : Cursor) (k pk : Key) : Except DomError Unit :=
  let w := failedTo "continuePrimaryKey" "IDBCursor"
  let next := c.direction = .next
  let than := if next then "less" else "greater"
  let cmp := c.position.elim .gt (cmpKeys k)
  let pcmp := c.objPos.elim .gt (cmpKeys pk)
  if (next ∧ cmp = .lt) ∨ (¬next ∧ cmp = .gt) then
    .error (domErr "DataError" (w ++ ": The key parameter is " ++ than ++
      " than or equal to this cursor's position."))
  else if cmp = .eq ∧ ((next ∧ pcmp ≠ .gt) ∨ (¬next ∧ pcmp ≠ .lt)) then
    .error (domErr "DataError" (w ++ ": The key and primary key parameters are " ++ than ++
      " than or equal to this cursor's position."))
  else .ok ()

def changed (t : Nat) (content : Content) (undo : Undo) : World :=
  { σ with content }.setTx t { σ.tx t with dirty := true,undo := undo :: (σ.tx t).undo }

def grant (t : Nat) (source : Source) : World :=
  σ.setTx t { σ.tx t with handles := source :: (σ.tx t).handles }

def addStore (t : Nat) (name : Text) (kp : Option KeyPath) (autoIncrement : Bool) : World :=
  let s := σ.nextStore
  let store : StoreData :=
    { name,keyPath := kp,autoIncrement,nextKey := some 1,rows := [],indexes := fun _ => none
      maintained := [],deleted := false,index := (σ.content.store s).index }
  let content := (σ.content.rename fun stores => Function.update stores name (some s)).setStore s store
  ({ σ with nextStore := s + 1 }.changed t content (.dropStore name s)).grant t ⟨s,none⟩

def addIndex (t s : Nat) (name : Text) (kp : KeyPath) (unique multiEntry : Bool) : World :=
  let i := σ.nextIndex
  let store := σ.content.store s
  let idx : IndexData :=
    { name,keyPath := kp,unique,multiEntry,rows := [],populated := false,deleted := false }
  let content := σ.content.setStore s
    { store.setIndex i idx with
      indexes := Function.update store.indexes name (some i)
      maintained := store.maintained ++ [i] }
  -- the index is filled by a request of the transaction, after the ones already queued
  ((({ σ with nextIndex := i + 1 }.changed t content (.store s (.dropIndex name i))).placeItem t
    (.populate s i) none).grant t ⟨s,some i⟩)

def removeStore (t : Nat) (name : Text) (s : Nat) : World :=
  σ.changed t
    ((σ.content.rename fun stores => Function.update stores name none).setStore s
      { σ.content.store s with deleted := true })
    (.restoreStore name s)

def removeIndex (t s : Nat) (name : Text) (i : Nat) : World :=
  let store := σ.content.store s
  let content := σ.content.setStore s
    { store.setIndex i { store.index i with deleted := true } with
      indexes := Function.update store.indexes name none }
  -- the index stops being maintained in order: the requests queued before still update it
  (σ.changed t content (.store s (.restoreIndex name i))).placeItem t (.unmaintain s i) none

def renameStoreTo (t s : Nat) (name : Text) : World :=
  let store := σ.content.store s
  σ.changed t
    ((σ.content.rename fun stores =>
      Function.update (Function.update stores store.name none) name (some s)).setStore s
        { store with name })
    (.renameStore s name store.name)

def renameIndexTo (t s i : Nat) (name : Text) : World :=
  let store := σ.content.store s
  let idx := store.index i
  σ.changed t
    (σ.content.setStore s
      { store.setIndex i { idx with name } with
        indexes := Function.update (Function.update store.indexes idx.name none) name (some i) })
    (.store s (.renameIndex i name idx.name))

end World

end Sharko.Script.IndexedDb
