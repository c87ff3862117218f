import Sharko.Script.IndexedDb.Engine

/-! The steps of the engine: calls of the page, the replies of its code, and timers. -/

namespace Sharko.Script.IndexedDb

namespace World

variable (σ : World)

def hasConn (c : Nat) : Bool := c < σ.connections.nextConn && (σ.connections.conn c).delivered

def hasTx (t : Nat) : Bool := t < σ.nextTx && !(σ.tx t).hold

def hasHandle (t : Nat) (source : Source) : Bool := σ.hasTx t && source ∈ (σ.tx t).handles

def hasCursor (id : Nat) : Bool := id < σ.nextCursor

def transactionError (message : String) (name : String) : DomError :=
  domErr name (failedTo "transaction" "IDBDatabase" ++ ": " ++ message)

def scopeOf (names : List Text) : Option (List Nat) :=
  names.mapM fun name => σ.content.database.bind fun data => data.stores name

def transaction (c : Nat) (names : List Text) (mode : Mode) : Except DomError World :=
  if σ.upgradeTx.any fun t => (σ.tx t).conn = c then
    .error (transactionError "A version change transaction is running." "InvalidStateError")
  else if (σ.connections.conn c).closePending then
    .error (transactionError "The database connection is closing." "InvalidStateError")
  else
    match σ.scopeOf names with
    | none => .error
        (transactionError "One of the specified object stores was not found." "NotFoundError")
    | some scope =>
      if scope = [] then
        .error (transactionError "The storeNames parameter is empty." "InvalidAccessError")
      else if mode = .versionchange then
        .error (transactionError
          "The mode provided ('versionchange') is not one of 'readonly' or 'readwrite'." "TypeError")
      else .ok ((σ.createTx c mode (some scope)).schedule σ.nextTx)

def objectStore (t : Nat) (name : Text) : Except DomError World :=
  let w := failedTo "objectStore" "IDBTransaction"
  let tx := σ.tx t
  if tx.state = .finished then
    .error (domErr "InvalidStateError" (w ++ ": The transaction has finished."))
  else
    let store :=
      match tx.scope with
      | none => σ.content.database.bind fun data => data.stores name
      | some scope => scope.find? fun s => (σ.content.store s).name = name
    match store with
    | none => .error (domErr "NotFoundError" (w ++ ": The specified object store was not found."))
    | some s => .ok (σ.grant t ⟨s,none⟩)

def index (t s : Nat) (name : Text) : Except DomError World :=
  let w := failedTo "index" "IDBObjectStore"
  let store := σ.content.store s
  if store.deleted then
    .error (domErr "InvalidStateError" (w ++ ": The object store has been deleted."))
  else if (σ.tx t).state = .finished then
    .error (domErr "InvalidStateError" (w ++ ": The transaction has finished."))
  else
    match store.indexes name with
    | none => .error (domErr "NotFoundError" (w ++ ": The specified index was not found."))
    | some i => .ok (σ.grant t ⟨s,some i⟩)

def commit (t : Nat) : Except DomError World :=
  if (σ.tx t).state ≠ .active then
    .error (domErr "InvalidStateError"
      (failedTo "commit" "IDBTransaction" ++ ": The transaction is not active."))
  else .ok ((σ.setTx t { σ.tx t with state := .committing }).schedule t)

def abort (t : Nat) : Except DomError World :=
  let w := failedTo "abort" "IDBTransaction"
  if (σ.tx t).state = .committing ∨ (σ.tx t).state = .finished then
    .error (domErr "InvalidStateError" (w ++ ": The transaction is already " ++
      (if (σ.tx t).state = .finished then "finished" else "committing") ++ "."))
  else .ok (σ.abortTx t none)

def query (t : Nat) (source : Source) (query : Query) : Except DomError World := do
  σ.preflight t source query.method (query = .delete)
  return σ.push (.querying t source query)

def clear (t s : Nat) : Except DomError World := do
  σ.preflight t ⟨s,none⟩ "clear" true
  return σ.execute t (.delete s none)

/-- `addOrPut` up to the conversion of the key. -/
def put (t s : Nat) (noOverwrite keyGiven : Bool) : Except DomError World := do
  let w := failedTo (if noOverwrite then "add" else "put") "IDBObjectStore"
  let store := σ.content.store s
  σ.preflight t ⟨s,none⟩ (if noOverwrite then "add" else "put") true
  if store.keyPath ≠ none ∧ keyGiven then
    .error (domErr "DataError"
      (w ++ ": The object store uses in-line keys and the key parameter was provided."))
  else if store.keyPath = none ∧ ¬store.autoIncrement ∧ ¬keyGiven then
    .error (domErr "DataError" (w ++ (": The object store uses out-of-line keys and has no key" ++
      " generator and the key parameter was not provided.")))
  else if keyGiven then .ok (σ.push (.keying t s noOverwrite))
  else .ok (σ.cloneInTx t (.put s noOverwrite none))

def advance (id count : Nat) : Except DomError World := do
  if count = 0 then
    .error (domErr "TypeError" (failedTo "advance" "IDBCursor" ++
      ": A count argument with value 0 (zero) was supplied, must be greater than 0."))
  else
    σ.cursorCheck (σ.cursor id) "advance" false
    return σ.moveCursor (σ.cursor id).tx id none none count

def continueTo (id : Nat) (keyGiven : Bool) : Except DomError World := do
  σ.cursorCheck (σ.cursor id) "continue" false
  if keyGiven then return σ.push (.continuing (σ.cursor id).tx id false)
  else return σ.moveCursor (σ.cursor id).tx id none none 1

def continuePrimaryKey (id : Nat) : Except DomError World := do
  σ.cursorCheck (σ.cursor id) "continuePrimaryKey" true
  return σ.push (.continuing (σ.cursor id).tx id true)

def update (id : Nat) : Except DomError World := do
  σ.cursorWrite (σ.cursor id) "update" "updated"
  return σ.cloneInTx (σ.cursor id).tx (.update id)

def deleteAt (id : Nat) : Except DomError World := do
  let c := σ.cursor id
  σ.cursorWrite c "delete" "deleted"
  match c.pk with
  | none => return σ
  | some pk => return σ.execute c.tx (.delete c.source.store (some (.only pk)))

def upgradeOf (c : Nat) (method : String) : Except DomError Nat :=
  let w := failedTo method "IDBDatabase"
  match σ.upgradeTx with
  | none => .error (domErr "InvalidStateError"
      (w ++ ": The database is not running a version change transaction."))
  | some t =>
    if (σ.tx t).conn ≠ c then .error (domErr "InvalidStateError"
      (w ++ ": The database is not running a version change transaction."))
    else if (σ.tx t).state ≠ .active then
      .error (domErr "TransactionInactiveError" (w ++ ": The transaction is not active."))
    else .ok t

def storeNamed (name : Text) : Option Nat := σ.content.database.bind fun data => data.stores name

def createObjectStore (c : Nat) (name : Text) : Except DomError World := do
  let t ← σ.upgradeOf c "createObjectStore"
  return σ.push (.storeKeyPath t name)

def deleteObjectStore (c : Nat) (name : Text) : Except DomError World := do
  let t ← σ.upgradeOf c "deleteObjectStore"
  match σ.storeNamed name with
  | none => .error (domErr "NotFoundError" (failedTo "deleteObjectStore" "IDBDatabase" ++
      ": The specified object store was not found."))
  | some s => return σ.removeStore t name s

def renameStore (t s : Nat) (name : Text) : Except DomError World :=
  let w := "Failed to set the 'name' property on 'IDBObjectStore'"
  let store := σ.content.store s
  if store.deleted then
    .error (domErr "InvalidStateError" (w ++ ": The object store has been deleted."))
  else if (σ.tx t).mode ≠ .versionchange then
    .error (domErr "InvalidStateError"
      (w ++ ": The object store's transaction is not an upgrade transaction."))
  else if (σ.tx t).state ≠ .active then
    .error (domErr "TransactionInactiveError" (w ++ ": The transaction is not active."))
  else if store.name = name then .ok σ
  else if (σ.storeNamed name).isSome then
    .error (domErr "ConstraintError"
      (w ++ ": An object store with the specified name already exists."))
  else .ok (σ.renameStoreTo t s name)

def schemaCheck (t s : Nat) (method : String) : Except DomError Unit :=
  let w := failedTo method "IDBObjectStore"
  if (σ.tx t).mode ≠ .versionchange then
    .error (domErr "InvalidStateError"
      (w ++ ": The database is not running a version change transaction."))
  else if (σ.content.store s).deleted then
    .error (domErr "InvalidStateError" (w ++ ": The object store has been deleted."))
  else if (σ.tx t).state ≠ .active then
    .error (domErr "TransactionInactiveError" (w ++ ": The transaction is not active."))
  else .ok ()

def createIndex (identifier : Text → Bool) (t s : Nat) (name : Text) (kp : KeyPath) :
    Except DomError World := do
  let w := failedTo "createIndex" "IDBObjectStore"
  σ.schemaCheck t s "createIndex"
  if ((σ.content.store s).indexes name).isSome then
    .error (domErr "ConstraintError" (w ++ ": An index with the specified name already exists."))
  else if !isValidKeyPath identifier kp then
    .error (domErr "SyntaxError" (w ++ ": The keyPath argument contains an invalid key path."))
  else return σ.push (.indexOptions t s name kp)

def deleteIndex (t s : Nat) (name : Text) : Except DomError World := do
  σ.schemaCheck t s "deleteIndex"
  match (σ.content.store s).indexes name with
  | none => .error (domErr "NotFoundError" (failedTo "deleteIndex" "IDBObjectStore" ++
      ": The specified index was not found."))
  | some i => return σ.removeIndex t s name i

def renameIndex (t s i : Nat) (name : Text) : Except DomError World :=
  let w := "Failed to set the 'name' property on 'IDBIndex'"
  let store := σ.content.store s
  let idx := store.index i
  if (σ.tx t).mode ≠ .versionchange then
    .error (domErr "InvalidStateError"
      (w ++ ": The index's transaction is not an upgrade transaction."))
  else if (σ.tx t).state ≠ .active then
    .error (domErr "TransactionInactiveError" (w ++ ": The transaction is not active."))
  else if idx.deleted ∨ store.deleted then
    .error (domErr "InvalidStateError" (w ++ ": The index or its object store has been deleted."))
  else if idx.name = name then .ok σ
  else if (store.indexes name).isSome then
    .error (domErr "ConstraintError" (w ++ ": An index with the specified name already exists."))
  else .ok (σ.renameIndexTo t s i name)

/-- A call of the page; none where the page has no such object. -/
def call (identifier : Text → Bool) : Call → Option (Except DomError World)
  | .openDb version =>
    if version = some 0 then none
    else
      let request := ConnRequest.openDb σ.nextReq version
      some (.ok (({ σ with nextReq := σ.nextReq + 1 }.record (.requested request)).connect
        (σ.connections.enqueueConn request)))
  | .deleteDb =>
    let request := ConnRequest.deleteDb σ.nextReq
    some (.ok (({ σ with nextReq := σ.nextReq + 1 }.record (.requested request)).connect
      (σ.connections.enqueueConn request)))
  | .close c => if σ.hasConn c then some (.ok (σ.connect (σ.connections.closeConn c))) else none
  | .transaction c names mode => if σ.hasConn c then some (σ.transaction c names mode) else none
  | .objectStore t name => if σ.hasTx t then some (σ.objectStore t name) else none
  | .index t s name => if σ.hasHandle t ⟨s,none⟩ then some (σ.index t s name) else none
  | .commit t => if σ.hasTx t then some (σ.commit t) else none
  | .abort t => if σ.hasTx t then some (σ.abort t) else none
  | .query t source query =>
    if σ.hasHandle t source ∧ (query = .delete → source.index = none) then
      some (σ.query t source query)
    else none
  | .clear t s => if σ.hasHandle t ⟨s,none⟩ then some (σ.clear t s) else none
  | .put t s noOverwrite keyGiven =>
    if σ.hasHandle t ⟨s,none⟩ then some (σ.put t s noOverwrite keyGiven) else none
  | .advance id count => if σ.hasCursor id then some (σ.advance id count) else none
  | .continue id keyGiven => if σ.hasCursor id then some (σ.continueTo id keyGiven) else none
  | .continuePrimaryKey id => if σ.hasCursor id then some (σ.continuePrimaryKey id) else none
  | .update id => if σ.hasCursor id then some (σ.update id) else none
  | .deleteAt id => if σ.hasCursor id then some (σ.deleteAt id) else none
  | .createObjectStore c name => if σ.hasConn c then some (σ.createObjectStore c name) else none
  | .deleteObjectStore c name => if σ.hasConn c then some (σ.deleteObjectStore c name) else none
  | .renameStore t s name =>
    if σ.hasHandle t ⟨s,none⟩ then some (σ.renameStore t s name) else none
  | .createIndex t s name kp =>
    if σ.hasHandle t ⟨s,none⟩ then some (σ.createIndex identifier t s name kp) else none
  | .deleteIndex t s name =>
    if σ.hasHandle t ⟨s,none⟩ then some (σ.deleteIndex t s name) else none
  | .renameIndex t s i name =>
    if σ.hasHandle t ⟨s,some i⟩ then some (σ.renameIndex t s i name) else none

def settleCall : Except DomError World → World
  | .ok σ' => σ'
  | .error error => σ.record (.thrown error)

def storeOf : Target → Nat
  | .put s _ _ => s
  | .update id => (σ.cursor id).source.store

def placeRecord (t : Nat) (target : Target) (key : Option Key) (value : Value) : World :=
  match target with
  | .put s noOverwrite _ => σ.execute t (.record s value key noOverwrite)
  | .update id => σ.execute t (.record (σ.cursor id).source.store value key false)

def givenKey : Target → Option Key
  | .put _ _ key => key
  | .update id => (σ.cursor id).pk

def extractedKey (target : Target) (value : Value) (kp : KeyPath) : Except DomError (Option Key) :=
  match target with
  | .put s noOverwrite key => σ.inlineKey s noOverwrite key value kp
  | .update id => do
    σ.sameKey (σ.cursor id) value kp
    return (σ.cursor id).pk

def runOp (t : Nat) (item : Item) : World :=
  let done := σ.perform item.op
  let tx := σ.tx t
  let σ := { σ with
    content := done.content,cursor := done.cursor,blobs := done.blobs,nextRow := done.nextRow }
  (σ.setTx t { tx with undo := done.undo ++ tx.undo,dirty := tx.dirty || done.dirty }).record
    (.performed t item done.outcome)

def dispatchAt (t : Nat) (item : Item) (outcome : Except DomError Result) (error : Option DomError) :
    World :=
  let σ := if (σ.tx t).state = .inactive then σ.setTx t { σ.tx t with state := .active } else σ
  (σ.record (.settled t item outcome)).push (.dispatched t error)

def runItem (t : Nat) (item : Item) (mark : Nat) : World :=
  let outcome := (σ.perform item.op).outcome
  let σ := σ.runOp t item
  match outcome with
  | .ok _ => if item.req = none then σ else σ.dispatchAt t item outcome none
  | .error error =>
    let σ := σ.rollback t mark
    if item.req = none ∨ (σ.tx t).state = .committing then
      -- no request to report to, or a commit is under way: the transaction fails
      let σ := if item.req = none then σ
        else σ.setTx t { σ.tx t with queue := item :: (σ.tx t).queue }
      σ.abortTx t (some error)
    else σ.dispatchAt t item outcome (some error)

def afterEvent (t : Nat) (error : Option DomError) (threw canceled : Bool) : World :=
  if (σ.tx t).state ≠ .active then σ
  else if threw then
    σ.setTx t { σ.tx t with
      pendingAbort := some (domErr "AbortError" "An exception was thrown in an event handler.") }
  else
    match error with
    | some error => if canceled then σ else σ.setTx t { σ.tx t with pendingAbort := some error }
    | none => σ

/-- The engine goes on when the page's code under the frame has returned; none where that code
cannot return so. -/
def resume (identifier : Text → Bool) : Frame → Reply → Option World
  | .running t item mark,.done => some (σ.runItem t item mark)
  | .dispatched t error,.event threw canceled => some (σ.afterEvent t error threw canceled)
  | .completing t,.event _ _ => some (σ.finalizeTx t)
  | .aborting t,.event _ _ => some (σ.finalizeTx t)
  | .upgrading t,.event threw _ =>
    some (if threw ∧ (σ.tx t).state = .active then
      σ.setTx t { σ.tx t with
        pendingAbort := some
          (domErr "AbortError" "An exception was thrown in the upgradeneeded event handler.") }
      else σ)
  | .querying t source query,.range range =>
    if range = none ∧ (query = .delete ∨ query = .get true ∨ query = .get false) then none
    else some (σ.runQuery t source range query)
  | .querying _ _ _,.failed => some σ
  | .keying t s noOverwrite,.key k => some (σ.cloneInTx t (.put s noOverwrite (some k)))
  | .keying _ _ _,.failed => some σ
  | .cloning t target prev,.clone value =>
    let σ := σ.endClone t prev
    if (σ.content.store (σ.storeOf target)).keyPath = none then
      some (σ.placeRecord t target (σ.givenKey target) value)
    else some (σ.push (.extracting t target value))
  | .cloning t _ prev,.failed => some (σ.endClone t prev)
  | .extracting t target value,.done =>
    match (σ.content.store (σ.storeOf target)).keyPath with
    | none => none
    | some kp =>
      some (σ.settleCall do
        let key ← σ.extractedKey target value kp
        return σ.placeRecord t target key value)
  | .extracting _ _ _,.failed => some σ
  | .continuing t id false,.key k =>
    some (σ.settleCall do
      ahead (σ.cursor id) k
      return σ.moveCursor t id (some k) none 1)
  | .continuing t id true,.keys k pk =>
    some (σ.settleCall do
      aheadPrimary (σ.cursor id) k pk
      return σ.moveCursor t id (some k) (some pk) 1)
  | .continuing _ _ _,.failed => some σ
  | .indexOptions t s name kp,.options unique multiEntry =>
    some (σ.settleCall
      (match multiEntry,kp with
      | true,.many _ => .error (domErr "InvalidAccessError" (failedTo "createIndex" "IDBObjectStore" ++
          ": The keyPath argument was an array and the multiEntry option is true."))
      | _,_ => .ok (σ.addIndex t s name kp unique multiEntry)))
  | .indexOptions _ _ _ _,.failed => some σ
  | .storeKeyPath t name,.keyPath kp =>
    let w := failedTo "createObjectStore" "IDBDatabase"
    some (σ.settleCall
      (if kp.any fun kp => !isValidKeyPath identifier kp then
        .error (domErr "SyntaxError" (w ++ ": The keyPath option is not a valid key path."))
      else if (σ.storeNamed name).isSome then
        .error (domErr "ConstraintError"
          (w ++ ": An object store with the specified name already exists."))
      else .ok (σ.push (.storeOptions t name kp))))
  | .storeKeyPath _ _,.failed => some σ
  | .storeOptions t name kp,.autoIncrement v =>
    let arrayOrEmpty : Bool :=
      match kp with
      | some (.one path) => path = []
      | some (.many _) => true
      | none => false
    some (σ.settleCall
      (if v ∧ arrayOrEmpty then
        .error (domErr "InvalidAccessError" (failedTo "createObjectStore" "IDBDatabase" ++
          (": The autoIncrement option was set but the keyPath option was empty or an array.")))
      else .ok (σ.addStore t name kp v)))
  | .storeOptions _ _ _,.failed => some σ
  | _,_ => none

/-- What the turn of an inactive transaction does: its abort, its next request or its end. -/
def work (t : Nat) (backend : Option DomError) : World :=
  let tx := σ.tx t
  match tx.pendingAbort with
  | some error => (σ.setTx t { tx with pendingAbort := none }).abortTx t (some error)
  | none =>
    if !σ.canStart t then σ
    else
      match tx.queue with
      | [] =>
        if tx.state = .committing then σ.commitTx t backend
        else (σ.setTx t { tx with state := .committing }).schedule t
      | item :: rest =>
        ((σ.setTx t { tx with queue := rest }).schedule t).push (.running t item tx.undo.length)

def step (t : Nat) (backend : Option DomError) : World :=
  let tx := σ.tx t
  if tx.state = .finished ∨ tx.hold then σ
  else if tx.state = .active ∧ tx.pendingAbort = none ∧ σ.seq ≠ tx.seq then
    (σ.setTx t { tx with state := .inactive }).schedule t
  else if tx.state = .active then (σ.setTx t { tx with state := .inactive }).work t backend
  else σ.work t backend

def upgrade (req conn version : Nat) : World :=
  match σ.content.database with
  | none => σ
  | some data =>
    let t := σ.nextTx
    let σ := σ.createTx conn .versionchange none
    let σ := σ.setTx t { σ.tx t with
      state := .inactive,hold := true,openReq := some req,oldVersion := data.version
      undo := [.setVersion data.version],dirty := true }
    { σ with
      upgradeTx := some t
      content := { σ.content with database := some { data with version } } }.later (.upgradeNeeded t)

def upgradeNeeded (t : Nat) : World :=
  let c := (σ.tx t).conn
  let σ := { σ with
    connections := σ.connections.setConn c { σ.connections.conn c with delivered := true } }
  ((σ.setTx t { σ.tx t with state := .active,hold := false }).schedule t).push (.upgrading t)

def runOpen (p : Processing) (req : Nat) (requested : Option Nat) : World :=
  let existing := σ.content.database.map Database.version
  let version := requested.getD (existing.getD 1)
  let σ := match existing with
    | some _ => σ
    | none => { σ with content := { σ.content with database := some ⟨0,fun _ => none⟩ } }
  let current := existing.getD 0
  if current > version then σ.connect (σ.connections.finishOpen req none)
  else
    let c := σ.connections.nextConn
    let others := σ.connections.conns
    let k := σ.connections.newConn version
    if current = version then σ.connect (k.finishOpen req (some c))
    else
      σ.connect (k.fireVersionChange
        { p with conn := c,version,oldVersion := current,others,left := 0 })

def runDelete (p : Processing) (req : Nat) : World :=
  match σ.content.database with
  | none => σ.connect (σ.connections.finishDelete req)
  | some data =>
    σ.connect (σ.connections.fireVersionChange
      { p with oldVersion := data.version,others := σ.connections.conns,left := 0 })

def connectionTask : ConnTask → World
  | .run =>
    match σ.connections.processing with
    | none => σ
    | some p =>
      let σ := σ.record (.started p.request)
      match p.request with
      | .openDb req version => σ.runOpen p req version
      | .deleteDb req => σ.runDelete p req
  | .versionChange _ =>
    match σ.connections.processing with
    | none => σ
    | some p =>
      -- registered before the event, which the page's handlers get now
      let σ := { σ with
        connections := { σ.connections with processing := some { p with left := p.left - 1 } } }
      if p.left = 1 then σ.later (.connection .afterVersionChange) else σ
  | .afterVersionChange =>
    match σ.connections.processing with
    | none => σ
    | some p =>
      let σ := if σ.connections.allClosed p.others then σ else σ.later (.connection .blocked)
      σ.connect (σ.connections.waitClosed p.others)
  | .closed =>
    match σ.connections.processing with
    | none => σ
    | some p =>
      match p.request with
      | .openDb req _ => σ.upgrade req p.conn p.version
      | .deleteDb req =>
        { σ with content := { σ.content with database := none } }.connect
          (σ.connections.finishDelete req)
  | .opened req (some c) =>
    { σ with
      connections := σ.connections.setConn c { σ.connections.conn c with delivered := true } }.record
        (.answered req)
  | .opened req none => σ.record (.answered req)
  | .blocked => σ
  | .deleted req => σ.record (.answered req)

def run (backend : Option DomError) : Task → World
  | .step t => (σ.setTx t { σ.tx t with scheduled := false }).step t backend
  | .settle t item =>
    σ.record (.settled t item (.error (domErr "AbortError"
      "The transaction was aborted, so the request cannot be fulfilled.")))
  | .aborted t =>
    let σ := if (σ.tx t).mode = .versionchange then { σ with upgradeTx := none } else σ
    (σ.record (.ended t true)).push (.aborting t)
  | .upgradeNeeded t => σ.upgradeNeeded t
  | .connection task => σ.connectionTask task

def act (identifier : Text → Bool) : Action → Option World
  | .call call => (σ.call identifier call).map σ.settleCall
  | .reply reply =>
    match σ.frames with
    | [] => none
    | frame :: rest => { σ with frames := rest }.resume identifier frame reply
  | .turn backend =>
    match σ.frames,σ.tasks with
    | [],task :: rest => some ({ σ with tasks := rest }.run backend task)
    | _,_ => none
  | .pageTimer => some { σ with seq := σ.seq + 1 }
  | .touch blobs => some { σ with blobs }

end World

end Sharko.Script.IndexedDb
