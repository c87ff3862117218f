import Mathlib.Logic.Relation
import Sharko.Script.IndexedDb.Ledger

/-! The moves of the ledger. Whatever the page calls, its code replies or a timer does is a
sequence of them. -/

namespace Sharko.Script.IndexedDb

def Frame.t : Frame → Nat
  | .running t _ _ => t
  | .dispatched t _ => t
  | .completing t => t
  | .aborting t => t
  | .upgrading t => t
  | .querying t _ _ => t
  | .keying t _ _ => t
  | .cloning t _ _ => t
  | .extracting t _ _ => t
  | .continuing t _ _ => t
  | .indexOptions t _ _ _ => t
  | .storeKeyPath t _ => t
  | .storeOptions t _ _ => t

def Frame.isCloning : Frame → Bool
  | .cloning _ _ _ => true
  | _ => false

def Frame.endsTx (t : Nat) : Frame → Bool
  | .completing u => u = t
  | .aborting u => u = t
  | _ => false

def Frame.item : Frame → Option Item
  | .running _ item _ => some item
  | _ => none

def Frame.isPlain : Frame → Bool
  | .running _ _ _ | .completing _ | .aborting _ | .cloning _ _ _ => false
  | _ => true

def Task.t? : Task → Option Nat
  | .step t => some t
  | .settle t _ => some t
  | .aborted t => some t
  | .upgradeNeeded t => some t
  | .connection _ => none

namespace Ledger

variable (Λ : Ledger)

structure Ready (t : Nat) : Prop where
  made : t < Λ.nextTx
  born : (Λ.tx t).hold = false
  unmasked : ∀ frame ∈ Λ.frames,frame.t = t → frame.isCloning = false

/-- A transaction that has finished, be it that a clone for it hides this. -/
def Over (t : Nat) : Prop :=
  (Λ.tx t).state = .finished ∨
    (Λ.tx t).state = .inactive ∧ ∃ target,Frame.cloning t target .finished ∈ Λ.frames

def rememberAll (t n : Nat) : Ledger :=
  Λ.set t { Λ.tx t with versions := List.replicate n none ++ (Λ.tx t).versions }

def performed (t : Nat) (item : Item) (outcome : Except DomError Result) : Ledger :=
  (Λ.record (.performed t item outcome)).leave

def fire (t : Nat) (item : Item) (outcome : Except DomError Result) (error : Option DomError) :
    Ledger :=
  let Λ := Λ.performed t item outcome
  let Λ := if (Λ.tx t).state = .inactive then Λ.become t .active else Λ
  (Λ.record (.settled t item outcome)).push (.dispatched t error)

def fail (t : Nat) (item : Item) (outcome : Except DomError Result) (scope : Option (List Nat)) :
    Ledger :=
  let Λ := Λ.performed t item outcome
  let Λ := if item.req = none then Λ else Λ.set t { Λ.tx t with queue := item :: (Λ.tx t).queue }
  Λ.abortTx t scope

def settle (t : Nat) (item : Item) (outcome : Except DomError Result) (tasks : List Task) : Ledger :=
  { Λ with tasks }.record (.settled t item outcome)

inductive Move : Ledger → Prop where
  | request (request : ConnRequest) :
    Move ((Λ.record (.requested request)).connect (Λ.connections.enqueueConn request))
  | close (c : Nat) (made : c < Λ.connections.nextConn)
    (delivered : (Λ.connections.conn c).delivered = true) :
    Move (Λ.connect (Λ.connections.closeConn c))
  | create (c : Nat) (mode : Mode) (scope : List Nat) (made : c < Λ.connections.nextConn)
    (delivered : (Λ.connections.conn c).delivered = true)
    (free : ∀ t,Λ.upgradeTx = some t → (Λ.tx t).conn ≠ c)
    (staying : (Λ.connections.conn c).closePending = false) (kind : mode ≠ .versionchange) :
    Move ((Λ.createTx c mode (some scope)).schedule Λ.nextTx)
  | place (t : Nat) (op : Op) (req : Option Nat) (ready : Λ.Ready t) : Move (Λ.placeItem t op req)
  | schedule (t : Nat) (made : t < Λ.nextTx) : Move (Λ.schedule t)
  | become (t : Nat) (state : TxState) (ready : Λ.Ready t) (before : (Λ.tx t).state ≠ .finished)
    (after : state ≠ .finished) : Move (Λ.become t state)
  | remember (t n : Nat) (made : t < Λ.nextTx) : Move (Λ.rememberAll t n)
  | rollback (t : Nat) (item : Item) (mark : Nat) (rest : List Frame)
    (frames : Λ.frames = .running t item mark :: rest) : Move (Λ.rollback t mark)
  | abort (t : Nat) (scope : Option (List Nat)) (made : t < Λ.nextTx)
    (born : (Λ.tx t).hold = false) : Move (Λ.abortTx t scope)
  | enter (frame : Frame) (ready : Λ.Ready frame.t) (listed : frame.t ∈ Λ.txs)
    (plain : frame.isPlain = true) :
    Move (Λ.push frame)
  | leave (frame : Frame) (rest : List Frame) (frames : Λ.frames = frame :: rest)
    (plain : frame.isPlain = true) : Move Λ.leave
  | mask (t : Nat) (target : Target) (ready : Λ.Ready t) (listed : t ∈ Λ.txs) : Move (Λ.mask t target)
  | unmask (t : Nat) (target : Target) (prev : TxState) (rest : List Frame)
    (frames : Λ.frames = .cloning t target prev :: rest) : Move (Λ.unmask t prev)
  | again (t : Nat) (tasks : List Task) (timer : Λ.tasks = .step t :: tasks) : Move (Λ.again t tasks)
  | rest (t : Nat) (tasks : List Task) (timer : Λ.tasks = .step t :: tasks)
    (settled : Λ.Over t ∨ (Λ.tx t).hold = true ∨ Λ.canStart t = false) : Move (Λ.rest t tasks)
  | start (t : Nat) (item : Item) (queue : List Item) (idle : Λ.frames = [])
    (made : t < Λ.nextTx) (born : (Λ.tx t).hold = false) (unfinished : (Λ.tx t).state ≠ .finished)
    (next : (Λ.tx t).queue = item :: queue) : Move (Λ.start t item queue)
  | finish (t : Nat) (item : Item) (mark : Nat) (rest : List Frame)
    (frames : Λ.frames = .running t item mark :: rest) (outcome : Except DomError Result)
    (silent : item.req = none) : Move (Λ.performed t item outcome)
  | fire (t : Nat) (item : Item) (mark : Nat) (rest : List Frame)
    (frames : Λ.frames = .running t item mark :: rest) (outcome : Except DomError Result)
    (error : Option DomError) (asks : item.req ≠ none) : Move (Λ.fire t item outcome error)
  | fail (t : Nat) (item : Item) (mark : Nat) (rest : List Frame)
    (frames : Λ.frames = .running t item mark :: rest) (outcome : Except DomError Result)
    (scope : Option (List Nat)) (doomed : item.req = none ∨ (Λ.tx t).state = .committing) :
    Move (Λ.fail t item outcome scope)
  | complete (t : Nat) (scope : Option (List Nat)) (idle : Λ.frames = []) (made : t < Λ.nextTx)
    (born : (Λ.tx t).hold = false) (committing : (Λ.tx t).state = .committing)
    (done : (Λ.tx t).queue = []) : Move (Λ.complete t scope)
  | finalize (t : Nat) (frame : Frame) (rest : List Frame) (frames : Λ.frames = frame :: rest)
    (ends : frame.endsTx t = true) (isOver : (Λ.tx t).state = .finished) : Move (Λ.leave.finalizeTx t)
  | settle (t : Nat) (item : Item) (tasks : List Task) (idle : Λ.frames = [])
    (timer : Λ.tasks = .settle t item :: tasks) (outcome : Except DomError Result) :
    Move (Λ.settle t item outcome tasks)
  | endAborted (t : Nat) (tasks : List Task) (idle : Λ.frames = [])
    (timer : Λ.tasks = .aborted t :: tasks) (isOver : (Λ.tx t).state = .finished) : Move ({ Λ with tasks }.endAborted t)
  | release (t : Nat) (tasks : List Task) (idle : Λ.frames = [])
    (timer : Λ.tasks = .upgradeNeeded t :: tasks) : Move ({ Λ with tasks }.upgradeNeeded t)
  | connection (task : ConnTask) (tasks : List Task) (idle : Λ.frames = [])
    (timer : Λ.tasks = .connection task :: tasks) : Move ({ Λ with tasks }.connectionTask task)

abbrev Moves : Ledger → Ledger → Prop := Relation.ReflTransGen Move

end Ledger

end Sharko.Script.IndexedDb
