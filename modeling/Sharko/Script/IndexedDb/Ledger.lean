import Sharko.Script.IndexedDb.Steps

/-! The ledger of a world: its transactions, connections, timers and the frames of the page's
stack, without what is in the stores. The functions of the engine are functions of the ledger,
where the stores have no say. -/

namespace Sharko.Script.IndexedDb

/-- A transaction with the versions its undo log goes back to. -/
structure Account where
  conn : Nat
  mode : Mode
  scope : Option (List Nat)
  state : TxState
  queue : List Item
  versions : List (Option Nat)
  aborted : Bool
  scheduled : Bool
  hold : Bool
  openReq : Option Nat
  oldVersion : Nat

def Undo.version : Undo → Option Nat
  | .setVersion old => some old
  | _ => none

def Tx.account (tx : Tx) : Account :=
  ⟨tx.conn,tx.mode,tx.scope,tx.state,tx.queue,tx.undo.map Undo.version,tx.aborted,tx.scheduled,
    tx.hold,tx.openReq,tx.oldVersion⟩

def Event.isThrown : Event → Bool
  | .thrown _ => true
  | _ => false

structure Ledger where
  database : Option Nat
  txs : List Nat
  tx : Nat → Account
  nextTx : Nat
  nextItem : Nat
  upgradeTx : Option Nat
  connections : Connections
  tasks : List Task
  frames : List Frame
  log : List Event

def World.ledger (σ : World) : Ledger where
  database := σ.content.database.map Database.version
  txs := σ.txs
  tx t := (σ.tx t).account
  nextTx := σ.nextTx
  nextItem := σ.nextItem
  upgradeTx := σ.upgradeTx
  connections := σ.connections
  tasks := σ.tasks
  frames := σ.frames
  log := σ.log.filter fun event => !event.isThrown

namespace Account

def conflicts (t tx : Account) : Bool :=
  (match t.scope,tx.scope with
  | some a,some b => a.any fun s => s ∈ b
  | _,_ => true) && (tx.mode ≠ .readonly || t.mode ≠ .readonly)

end Account

namespace Ledger

variable (Λ : Ledger)

def set (t : Nat) (account : Account) : Ledger := { Λ with tx := Function.update Λ.tx t account }

theorem set_tx_self (t : Nat) (account : Account) : (Λ.set t account).tx t = account := by
  simp [set]

theorem set_tx_other {t u : Nat} (other : u ≠ t) (account : Account) : (Λ.set t account).tx u = Λ.tx u := by
  simp [set,other]

def later (task : Task) : Ledger := { Λ with tasks := Λ.tasks ++ [task] }

def laters (tasks : List Task) : Ledger := { Λ with tasks := Λ.tasks ++ tasks }

def push (frame : Frame) : Ledger := { Λ with frames := frame :: Λ.frames }

def leave : Ledger := { Λ with frames := Λ.frames.tail }

def record (event : Event) : Ledger := { Λ with log := Λ.log ++ [event] }

def connect (change : Connections × List ConnTask) : Ledger :=
  { Λ with connections := change.1 }.laters (change.2.map .connection)

def canStartAmong (t : Nat) : List Nat → Bool
  | [] => true
  | u :: rest =>
    if u = t then true
    else if (Λ.tx u).conflicts (Λ.tx t) then false
    else canStartAmong t rest

def canStart (t : Nat) : Bool := Λ.canStartAmong t Λ.txs

def schedule (t : Nat) : Ledger :=
  if (Λ.tx t).scheduled then Λ
  else (Λ.later (.step t)).set t { Λ.tx t with scheduled := true }

def pumpDb : Ledger :=
  Λ.txs.foldl (fun Λ t => if (Λ.tx t).state ≠ .finished then Λ.schedule t else Λ) Λ

def createTx (c : Nat) (mode : Mode) (scope : Option (List Nat)) : Ledger :=
  let t := Λ.nextTx
  { Λ with
    tx := Function.update Λ.tx t
      { conn := c,mode,scope,state := .active,queue := [],versions := [],aborted := false
        scheduled := false,hold := false,openReq := none,oldVersion := 0 }
    nextTx := t + 1
    txs := Λ.txs ++ [t]
    connections := Λ.connections.addTx c t }

def placeItem (t : Nat) (op : Op) (req : Option Nat) : Ledger :=
  let item : Item := ⟨Λ.nextItem,req,op⟩
  let Λ := { Λ with nextItem := Λ.nextItem + 1 }.record (.placed t item (Λ.tx t).state)
  Λ.set t { Λ.tx t with queue := (Λ.tx t).queue ++ [item] }

def become (t : Nat) (state : TxState) : Ledger := Λ.set t { Λ.tx t with state }

def undone (versions : List (Option Nat)) (database : Option Nat) : Option Nat :=
  versions.foldl (fun database version => version.elim database fun old => database.map fun _ => old)
    database

def rollback (t mark : Nat) : Ledger :=
  let versions := (Λ.tx t).versions
  let count := versions.length - mark
  { Λ with database := undone (versions.take count) Λ.database }.set t
    { Λ.tx t with versions := versions.drop count }

def mask (t : Nat) (target : Target) : Ledger :=
  (Λ.become t .inactive).push (.cloning t target (Λ.tx t).state)

def unmask (t : Nat) (prev : TxState) : Ledger :=
  (Λ.become t (if (Λ.tx t).state = .inactive then prev else (Λ.tx t).state)).leave

def abortUpgrade (t : Nat) : Ledger :=
  let c := (Λ.tx t).conn
  match Λ.database with
  | none =>
    { Λ with connections := Λ.connections.setConn c { Λ.connections.conn c with version := 0 } }
  | some version =>
    let Λ := { Λ with connections := Λ.connections.setConn c { Λ.connections.conn c with version } }
    if version = 0 then { Λ with database := none } else Λ

def settlesOf (pending : List Item) (t : Nat) : List Task :=
  (pending.filter fun item => item.req.isSome).map (.settle t)

/-- The scope of an upgrade is frozen when it ends. -/
def abortTx (t : Nat) (scope : Option (List Nat)) : Ledger :=
  if (Λ.tx t).state = .finished then Λ
  else
    let Λ := Λ.set t { Λ.tx t with aborted := true }
    let Λ := Λ.rollback t 0
    let Λ := if (Λ.tx t).mode = .versionchange then
        (Λ.abortUpgrade t).set t { Λ.tx t with scope }
      else Λ
    let pending := (Λ.tx t).queue
    let Λ := Λ.set t { Λ.tx t with state := .finished,queue := [] }
    let Λ := Λ.laters (settlesOf pending t)
    Λ.later (.aborted t)

def abortedTx (t : Nat) (scope : Option (List Nat)) : Account :=
  { Λ.tx t with
    state := .finished,queue := [],versions := [],aborted := true
    scope := if (Λ.tx t).mode = .versionchange then scope else (Λ.tx t).scope }

def abortedDatabase (t : Nat) : Option Nat :=
  let database := undone (Λ.tx t).versions Λ.database
  if (Λ.tx t).mode = .versionchange ∧ database = some 0 then none else database

def abortedConnections (t : Nat) : Connections :=
  let c := (Λ.tx t).conn
  if (Λ.tx t).mode = .versionchange then
    Λ.connections.setConn c
      { Λ.connections.conn c with version := (undone (Λ.tx t).versions Λ.database).getD 0 }
  else Λ.connections

theorem abortTx_finished {t : Nat} (isOver : (Λ.tx t).state = .finished) (scope : Option (List Nat)) :
    Λ.abortTx t scope = Λ := by
  rw [abortTx,if_pos isOver]

theorem abortTx_eq {t : Nat} (unfinished : (Λ.tx t).state ≠ .finished) (scope : Option (List Nat)) :
    Λ.abortTx t scope = { Λ with
      database := Λ.abortedDatabase t
      connections := Λ.abortedConnections t
      tasks := Λ.tasks ++ settlesOf (Λ.tx t).queue t ++ [Task.aborted t] }.set t
        (Λ.abortedTx t scope) := by
  unfold abortTx abortedDatabase abortedConnections abortedTx abortUpgrade rollback
  rw [if_neg unfinished]
  by_cases upgrade : (Λ.tx t).mode = .versionchange
  · cases version : undone (Λ.tx t).versions Λ.database with
    | none => simp [set,later,laters,upgrade,version]
    | some v =>
      by_cases new : v = 0
      · simp [set,later,laters,upgrade,version,new]
      · simp [set,later,laters,upgrade,version,new]
  · simp [set,later,laters,upgrade]

def finishUpgrade (t : Nat) : Ledger :=
  let tx := Λ.tx t
  match tx.openReq with
  | none => Λ
  | some req =>
    let Λ := Λ.set t { tx with openReq := none }
    if tx.aborted then
      let Λ := Λ.connect (Λ.connections.closeConn tx.conn)
      Λ.connect (Λ.connections.finishOpen req none)
    else if (Λ.connections.conn tx.conn).closePending then
      Λ.connect (Λ.connections.finishOpen req none)
    else Λ.connect (Λ.connections.finishOpen req (some tx.conn))

def finalizeTx (t : Nat) : Ledger :=
  let c := (Λ.tx t).conn
  let Λ := { Λ with txs := Λ.txs.erase t,connections := Λ.connections.removeTx c t }
  let Λ := (Λ.finishUpgrade t).pumpDb
  Λ.connect (Λ.connections.maybeClosed c)

def complete (t : Nat) (scope : Option (List Nat)) : Ledger :=
  let Λ := Λ.set t { Λ.tx t with versions := [] }
  let Λ := if (Λ.tx t).mode = .versionchange then
      { Λ with upgradeTx := none }.set t { Λ.tx t with scope }
    else Λ
  let Λ := Λ.become t .finished
  (Λ.record (.ended t false)).push (.completing t)

def completedTx (t : Nat) (scope : Option (List Nat)) : Account :=
  { Λ.tx t with
    state := .finished,versions := []
    scope := if (Λ.tx t).mode = .versionchange then scope else (Λ.tx t).scope }

def upgradeAfter (t : Nat) : Option Nat :=
  if (Λ.tx t).mode = .versionchange then none else Λ.upgradeTx

theorem complete_eq (t : Nat) (scope : Option (List Nat)) : Λ.complete t scope =
      (({ Λ with upgradeTx := Λ.upgradeAfter t }.set t (Λ.completedTx t scope)).record
        (.ended t false)).push (.completing t) := by
  unfold complete completedTx upgradeAfter become
  by_cases upgrade : (Λ.tx t).mode = .versionchange
  · simp [set,upgrade]
  · simp [set,upgrade]

def rest (t : Nat) (tasks : List Task) : Ledger :=
  { Λ with tasks }.set t { Λ.tx t with scheduled := false }

def again (t : Nat) (tasks : List Task) : Ledger :=
  { Λ with tasks := tasks ++ [Task.step t] }.set t { Λ.tx t with scheduled := true }

def start (t : Nat) (item : Item) (queue : List Item) : Ledger :=
  (Λ.set t { Λ.tx t with queue }).push (.running t item (Λ.tx t).versions.length)

def endAborted (t : Nat) : Ledger :=
  let Λ := if (Λ.tx t).mode = .versionchange then { Λ with upgradeTx := none } else Λ
  (Λ.record (.ended t true)).push (.aborting t)

theorem endAborted_eq (t : Nat) : Λ.endAborted t =
    ({ Λ with upgradeTx := Λ.upgradeAfter t }.record (.ended t true)).push (.aborting t) := by
  unfold endAborted upgradeAfter
  split <;> rfl

def deliver (c : Nat) : Ledger :=
  { Λ with
    connections := Λ.connections.setConn c { Λ.connections.conn c with delivered := true } }

def upgradeNeeded (t : Nat) : Ledger :=
  let Λ := Λ.deliver (Λ.tx t).conn
  ((Λ.set t { Λ.tx t with state := .active,hold := false }).schedule t).push (.upgrading t)

def upgrade (req conn version : Nat) : Ledger :=
  match Λ.database with
  | none => Λ
  | some old =>
    let t := Λ.nextTx
    let Λ := Λ.createTx conn .versionchange none
    let Λ := Λ.set t { Λ.tx t with
      state := .inactive,hold := true,openReq := some req,oldVersion := old,versions := [some old] }
    { Λ with upgradeTx := some t,database := some version }.later (.upgradeNeeded t)

def heldTx (req conn old : Nat) : Account where
  conn := conn
  mode := .versionchange
  scope := none
  state := .inactive
  queue := []
  versions := [some old]
  aborted := false
  scheduled := false
  hold := true
  openReq := some req
  oldVersion := old

theorem upgrade_eq {old : Nat} (database : Λ.database = some old) (req conn version : Nat) :
    Λ.upgrade req conn version = { Λ with
      database := some version
      txs := Λ.txs ++ [Λ.nextTx]
      nextTx := Λ.nextTx + 1
      upgradeTx := some Λ.nextTx
      connections := Λ.connections.addTx conn Λ.nextTx
      tasks := Λ.tasks ++ [Task.upgradeNeeded Λ.nextTx] }.set Λ.nextTx (heldTx req conn old) := by
  unfold upgrade heldTx
  rw [database]
  simp [createTx,set,later]

def runOpen (p : Processing) (req : Nat) (requested : Option Nat) : Ledger :=
  let existing := Λ.database
  let version := requested.getD (existing.getD 1)
  let Λ := match existing with
    | some _ => Λ
    | none => { Λ with database := some 0 }
  let current := existing.getD 0
  if current > version then Λ.connect (Λ.connections.finishOpen req none)
  else
    let c := Λ.connections.nextConn
    let others := Λ.connections.conns
    let k := Λ.connections.newConn version
    if current = version then Λ.connect (k.finishOpen req (some c))
    else
      Λ.connect (k.fireVersionChange
        { p with conn := c,version,oldVersion := current,others,left := 0 })

def runDelete (p : Processing) (req : Nat) : Ledger :=
  match Λ.database with
  | none => Λ.connect (Λ.connections.finishDelete req)
  | some version =>
    Λ.connect (Λ.connections.fireVersionChange
      { p with oldVersion := version,others := Λ.connections.conns,left := 0 })

def connectionTask : ConnTask → Ledger
  | .run =>
    match Λ.connections.processing with
    | none => Λ
    | some p =>
      let Λ := Λ.record (.started p.request)
      match p.request with
      | .openDb req version => Λ.runOpen p req version
      | .deleteDb req => Λ.runDelete p req
  | .versionChange _ =>
    match Λ.connections.processing with
    | none => Λ
    | some p =>
      let Λ := { Λ with
        connections := { Λ.connections with processing := some { p with left := p.left - 1 } } }
      if p.left = 1 then Λ.later (.connection .afterVersionChange) else Λ
  | .afterVersionChange =>
    match Λ.connections.processing with
    | none => Λ
    | some p =>
      let Λ := if Λ.connections.allClosed p.others then Λ else Λ.later (.connection .blocked)
      Λ.connect (Λ.connections.waitClosed p.others)
  | .closed =>
    match Λ.connections.processing with
    | none => Λ
    | some p =>
      match p.request with
      | .openDb req _ => Λ.upgrade req p.conn p.version
      | .deleteDb req => { Λ with database := none }.connect (Λ.connections.finishDelete req)
  | .opened req (some c) => (Λ.deliver c).record (.answered req)
  | .opened req none => Λ.record (.answered req)
  | .blocked => Λ
  | .deleted req => Λ.record (.answered req)

end Ledger

namespace World

variable (σ : World) (t : Nat)

theorem ledger_setTx (tx : Tx) : (σ.setTx t tx).ledger = σ.ledger.set t tx.account := by
  have same : (fun u => (Function.update σ.tx t tx u).account) =
      Function.update (fun u => (σ.tx u).account) t tx.account := by
    funext u
    exact Function.apply_update (fun _ tx => Tx.account tx) σ.tx t tx u
  simp only [ledger,setTx,Ledger.set,same]

theorem ledger_record {event : Event} (kept : event.isThrown = false) :
    (σ.record event).ledger = σ.ledger.record event := by
  simp [ledger,record,Ledger.record,List.filter_append,kept]

theorem ledger_thrown (error : DomError) : (σ.record (.thrown error)).ledger = σ.ledger := by
  simp [ledger,record,List.filter_append,Event.isThrown]

theorem ledger_connect (change : Connections × List ConnTask) :
    (σ.connect change).ledger = σ.ledger.connect change := rfl

theorem canStartAmong_ledger (txs : List Nat) : σ.ledger.canStartAmong t txs = σ.canStartAmong t txs := by
  induction txs with
  | nil => rfl
  | cons u rest ih =>
    rw [Ledger.canStartAmong,canStartAmong,ih]
    rfl

theorem canStart_ledger : σ.ledger.canStart t = σ.canStart t := σ.canStartAmong_ledger t σ.txs

theorem ledger_schedule : (σ.schedule t).ledger = σ.ledger.schedule t := by
  unfold schedule Ledger.schedule
  rw [show (σ.ledger.tx t).scheduled = (σ.tx t).scheduled from rfl]
  split
  · rfl
  · exact ledger_setTx (σ.later (.step t)) t _

theorem ledger_pumpDb : σ.pumpDb.ledger = σ.ledger.pumpDb := by
  unfold pumpDb Ledger.pumpDb
  rw [show σ.ledger.txs = σ.txs from rfl]
  generalize σ.txs = txs
  induction txs generalizing σ with
  | nil => rfl
  | cons u rest ih =>
    rw [List.foldl_cons,List.foldl_cons,ih,show (σ.ledger.tx u).state = (σ.tx u).state from rfl]
    split
    · rw [ledger_schedule]
    · rfl

theorem ledger_createTx (c : Nat) (mode : Mode) (scope : Option (List Nat)) :
    (σ.createTx c mode scope).ledger = σ.ledger.createTx c mode scope := by
  have same : ∀ tx : Tx,(fun u => (Function.update σ.tx σ.nextTx tx u).account) =
      Function.update (fun u => (σ.tx u).account) σ.nextTx tx.account := by
    intro tx
    funext u
    exact Function.apply_update (fun _ tx => Tx.account tx) σ.tx σ.nextTx tx u
  simp only [ledger,createTx,Ledger.createTx,same]
  rfl

theorem ledger_placeItem (op : Op) (req : Option Nat) :
    (σ.placeItem t op req).ledger = (σ.ledger.placeItem t op req).schedule t := by
  unfold placeItem
  dsimp only
  rw [ledger_schedule,ledger_setTx,ledger_record _ rfl]
  rfl

theorem revert_version (content : Content) (undo : Undo) : (content.revert undo).database.map Database.version =
      undo.version.elim (content.database.map Database.version)
        fun old => (content.database.map Database.version).map fun _ => old := by
  cases undo with
  | setVersion old => simp [Content.revert,Undo.version,Function.comp_def]
  | store s u => simp [Content.revert,Undo.version,Content.setStore]
  | dropStore name s | restoreStore name s | renameStore s name old =>
    simp [Content.revert,Undo.version,Content.setStore,Content.rename,Function.comp_def]

theorem revertAll_version (undo : List Undo) (content : Content) :
    (undo.foldl Content.revert content).database.map Database.version =
      Ledger.undone (undo.map Undo.version) (content.database.map Database.version) := by
  induction undo generalizing content with
  | nil => rfl
  | cons u rest ih =>
    rw [List.foldl_cons,ih,revert_version]
    rfl

theorem ledger_rollback (mark : Nat) : (σ.rollback t mark).ledger = σ.ledger.rollback t mark := by
  unfold rollback Ledger.rollback
  dsimp only
  rw [ledger_setTx]
  simp [ledger,Ledger.set,Tx.account,revertAll_version,List.map_take,List.map_drop]

theorem ledger_abortUpgrade : (σ.abortUpgrade t).ledger = σ.ledger.abortUpgrade t := by
  unfold abortUpgrade Ledger.abortUpgrade
  cases data : σ.content.database with
  | none => simp [ledger,data,Tx.account]
  | some data' =>
    by_cases new : data'.version = 0
    · simp [ledger,data,new,Tx.account]
    · simp [ledger,data,new,Tx.account]

def frozenScope (σ : World) : Option (List Nat) :=
  some (match σ.content.database with
    | none => []
    | some data => (List.range σ.nextStore).filter fun s => data.stores (σ.content.store s).name = some s)

theorem ledger_freezeScope : (σ.freezeScope t).ledger =
    σ.ledger.set t { σ.ledger.tx t with scope := σ.frozenScope } :=
  ledger_setTx σ t _

theorem abortUpgrade_tx (Λ : Ledger) : (Λ.abortUpgrade t).tx = Λ.tx := by
  unfold Ledger.abortUpgrade
  dsimp only
  split
  · rfl
  · split <;> rfl

theorem freezeScope_tx : ((σ.abortUpgrade t).freezeScope t).tx t =
    { σ.tx t with scope := (σ.abortUpgrade t).frozenScope } := by
  have same : (σ.abortUpgrade t).tx = σ.tx := by
    unfold abortUpgrade
    dsimp only
    split
    · rfl
    · split <;> rfl
  simp only [freezeScope,setTx,same,Function.update_self]
  rfl

theorem ledger_abortTx (error : Option DomError) :
    ∃ scope,(σ.abortTx t error).ledger = σ.ledger.abortTx t scope := by
  have isOver : ∀ (ρ : World) (tx : Tx) (pending : List Task),
      (((ρ.setTx t tx).laters pending).later (.aborted t)).ledger =
        ((ρ.ledger.set t tx.account).laters pending).later (.aborted t) := by
    intro ρ tx pending
    rw [← ledger_setTx]
    rfl
  unfold abortTx Ledger.abortTx
  rw [show (σ.ledger.tx t).state = (σ.tx t).state from rfl]
  split
  · exact ⟨none,rfl⟩
  · dsimp only
    generalize before : (σ.setTx t { σ.tx t with aborted := true }).rollback t 0 = τ
    have image : (σ.ledger.set t { σ.ledger.tx t with aborted := true }).rollback t 0 = τ.ledger := by
      rw [← before,ledger_rollback,ledger_setTx]
      rfl
    refine ⟨(τ.abortUpgrade t).frozenScope,?_⟩
    rw [image,show (τ.ledger.tx t).mode = (τ.tx t).mode from rfl,isOver]
    split
    · rw [ledger_freezeScope,ledger_abortUpgrade,abortUpgrade_tx,freezeScope_tx,Ledger.set_tx_self]
      rfl
    · rfl

theorem ledger_answer (aborted : Bool) (req c : Nat) : (if aborted then
      (σ.connect (σ.connections.closeConn c)).connect
        ((σ.connect (σ.connections.closeConn c)).connections.finishOpen req none)
    else if (σ.connections.conn c).closePending then σ.connect (σ.connections.finishOpen req none)
    else σ.connect (σ.connections.finishOpen req (some c))).ledger =
    if aborted then
      (σ.ledger.connect (σ.ledger.connections.closeConn c)).connect
        ((σ.ledger.connect (σ.ledger.connections.closeConn c)).connections.finishOpen req none)
    else if (σ.ledger.connections.conn c).closePending then
      σ.ledger.connect (σ.ledger.connections.finishOpen req none)
    else σ.ledger.connect (σ.ledger.connections.finishOpen req (some c)) := by
  rw [show σ.ledger.connections = σ.connections from rfl]
  split
  · rfl
  · split
    · rfl
    · rfl

theorem ledger_finishUpgrade : (σ.finishUpgrade t).ledger = σ.ledger.finishUpgrade t := by
  unfold finishUpgrade Ledger.finishUpgrade
  dsimp only
  rw [show (σ.ledger.tx t).openReq = (σ.tx t).openReq from rfl]
  cases (σ.tx t).openReq with
  | none => rfl
  | some req =>
    have same := ledger_setTx σ t { σ.tx t with openReq := none }
    have answer := (σ.setTx t { σ.tx t with openReq := none }).ledger_answer (σ.tx t).aborted req (σ.tx t).conn
    rw [same] at answer
    exact answer

theorem ledger_finalizeTx : (σ.finalizeTx t).ledger = σ.ledger.finalizeTx t := by
  unfold finalizeTx Ledger.finalizeTx
  dsimp only
  have before : ({ σ with
      txs := σ.txs.erase t
      connections := σ.connections.removeTx (σ.tx t).conn t }.finishUpgrade t).pumpDb.ledger =
      ({ σ.ledger with
        txs := σ.ledger.txs.erase t
        connections := σ.ledger.connections.removeTx (σ.ledger.tx t).conn t }.finishUpgrade t).pumpDb := by
    rw [ledger_pumpDb,ledger_finishUpgrade]
    rfl
  rw [ledger_connect,before,← before]
  rfl

theorem ledger_commitTx (backend : Option DomError) : ∃ scope,
    (σ.commitTx t backend).ledger = σ.ledger.abortTx t scope ∨
      (σ.commitTx t backend).ledger = σ.ledger.complete t scope := by
  unfold commitTx
  split
  next error _ =>
    obtain ⟨scope,same⟩ := σ.ledger_abortTx t (some error)
    exact ⟨scope,.inl same⟩
  next =>
    generalize before : σ.setTx t { σ.tx t with undo := [] } = τ
    have image : σ.ledger.set t { σ.ledger.tx t with versions := [] } = τ.ledger := by
      rw [← before,ledger_setTx]
      rfl
    refine ⟨{ τ with upgradeTx := none }.frozenScope,.inr ?_⟩
    unfold Ledger.complete
    dsimp only
    rw [image,show (τ.ledger.tx t).mode = (τ.tx t).mode from rfl]
    have isOver : ∀ (ρ : World) (tx : Tx),(((ρ.setTx t tx).record (.ended t false)).push (.completing t)).ledger =
        ((ρ.ledger.set t tx.account).record (.ended t false)).push (.completing t) := by
      intro ρ tx
      rw [← ledger_setTx,← ledger_record _ rfl]
      rfl
    rw [isOver]
    split
    · rw [ledger_freezeScope]
      simp only [Ledger.become,Ledger.set_tx_self,freezeScope,setTx,Function.update_self]
      rfl
    · rfl

theorem ledger_hold (tx : Tx) (database : Database) : ({ σ.setTx t tx with
      upgradeTx := some t,content := { σ.content with database := some database } }.later
        (.upgradeNeeded t)).ledger =
    { σ.ledger.set t tx.account with
      upgradeTx := some t,database := some database.version }.later (.upgradeNeeded t) := by
  rw [← ledger_setTx]
  rfl

theorem ledger_upgrade (req c version : Nat) :
    (σ.upgrade req c version).ledger = σ.ledger.upgrade req c version := by
  unfold upgrade Ledger.upgrade
  rw [show σ.ledger.database = σ.content.database.map Database.version from rfl]
  cases σ.content.database with
  | none => rfl
  | some data =>
    dsimp only [Option.map]
    rw [← ledger_createTx]
    exact ledger_hold (σ.createTx c .versionchange none) σ.nextTx
      { (σ.createTx c .versionchange none).tx σ.nextTx with
        state := .inactive,hold := true,openReq := some req,oldVersion := data.version
        undo := [.setVersion data.version],dirty := true } { data with version }

theorem ledger_runOpen (p : Processing) (req : Nat) (requested : Option Nat) :
    (σ.runOpen p req requested).ledger = σ.ledger.runOpen p req requested := by
  unfold runOpen Ledger.runOpen
  rw [show σ.ledger.database = σ.content.database.map Database.version from rfl]
  cases σ.content.database with
  | none =>
    dsimp only [Option.map]
    split
    · rfl
    · split
      · rfl
      · rfl
  | some data =>
    dsimp only [Option.map]
    split
    · rfl
    · split
      · rfl
      · rfl

theorem ledger_runDelete (p : Processing) (req : Nat) :
    (σ.runDelete p req).ledger = σ.ledger.runDelete p req := by
  unfold runDelete Ledger.runDelete
  rw [show σ.ledger.database = σ.content.database.map Database.version from rfl]
  cases σ.content.database with
  | none => rfl
  | some data => rfl

theorem ledger_connectionTask (task : ConnTask) :
    (σ.connectionTask task).ledger = σ.ledger.connectionTask task := by
  unfold connectionTask Ledger.connectionTask
  rw [show σ.ledger.connections = σ.connections from rfl]
  cases task with
  | run =>
    dsimp only
    cases σ.connections.processing with
    | none => rfl
    | some p =>
      dsimp only
      cases p.request with
      | openDb req version =>
        dsimp only
        rw [ledger_runOpen,ledger_record _ rfl]
      | deleteDb req =>
        dsimp only
        rw [ledger_runDelete,ledger_record _ rfl]
  | versionChange c =>
    dsimp only
    cases σ.connections.processing with
    | none => rfl
    | some p =>
      dsimp only
      split <;> rfl
  | afterVersionChange =>
    dsimp only
    cases σ.connections.processing with
    | none => rfl
    | some p =>
      dsimp only
      split <;> rfl
  | closed =>
    dsimp only
    cases σ.connections.processing with
    | none => rfl
    | some p =>
      dsimp only
      cases p.request with
      | openDb req version =>
        dsimp only
        rw [ledger_upgrade]
      | deleteDb req => rfl
  | blocked => rfl
  | deleted req => exact ledger_record σ rfl
  | opened req found =>
    cases found with
    | none => exact ledger_record σ rfl
    | some c => exact ledger_record { σ with connections := _ } rfl

end World

end Sharko.Script.IndexedDb
