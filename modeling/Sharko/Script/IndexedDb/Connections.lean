import Mathlib.Data.List.Basic
import Mathlib.Logic.Function.Basic

/-! The connections to one database and its queue of open and delete requests: one request is
processed at a time, and it goes on once the connections in its way are closed. A function here
returns the timers it sets, in order. -/

namespace Sharko.Script.IndexedDb

structure Conn where
  version : Nat
  closePending : Bool
  closed : Bool
  delivered : Bool
  txs : List Nat

inductive ConnRequest where
  | openDb (req : Nat) (version : Option Nat)
  | deleteDb (req : Nat)
  deriving DecidableEq

structure Processing where
  request : ConnRequest
  conn : Nat
  version : Nat
  oldVersion : Nat
  others : List Nat
  left : Nat

structure Connections where
  conn : Nat → Conn
  nextConn : Nat
  conns : List Nat
  queue : List ConnRequest
  busy : Bool
  processing : Option Processing
  waiters : List (List Nat)

/-- The timers of connections and of their queue. -/
inductive ConnTask where
  | run
  | versionChange (c : Nat)
  | afterVersionChange
  | blocked
  | closed
  /-- The event at the end of an open request; no connection is an error. -/
  | opened (req : Nat) (conn : Option Nat)
  | deleted (req : Nat)
  deriving DecidableEq

namespace Connections

variable (k : Connections)

def setConn (c : Nat) (conn : Conn) : Connections :=
  { k with conn := Function.update k.conn c conn }

def pumpQueue : Connections × List ConnTask :=
  if k.busy then (k,[])
  else
    match k.queue with
    | [] => (k,[])
    | request :: rest =>
      ({ k with busy := true,queue := rest,processing := some ⟨request,0,0,0,[],0⟩ },[.run])

def enqueueConn (request : ConnRequest) : Connections × List ConnTask :=
  { k with queue := k.queue ++ [request] }.pumpQueue

def done : Connections × List ConnTask :=
  { k with busy := false,processing := none }.pumpQueue

def allClosed (conns : List Nat) : Bool := conns.all fun c => (k.conn c).closed

def waitClosed (conns : List Nat) : Connections × List ConnTask :=
  if k.allClosed conns then (k,[.closed])
  else ({ k with waiters := k.waiters ++ [conns] },[])

def checkWaiters : Connections × List ConnTask :=
  let ready := k.waiters.filter k.allClosed
  ({ k with waiters := k.waiters.filter fun conns => !k.allClosed conns },ready.map fun _ => .closed)

def maybeClosed (c : Nat) : Connections × List ConnTask :=
  let conn := k.conn c
  if !conn.closePending || conn.closed || conn.txs ≠ [] then (k,[])
  else
    { k.setConn c { conn with closed := true } with conns := k.conns.erase c }.checkWaiters

def closeConn (c : Nat) : Connections × List ConnTask :=
  (k.setConn c { k.conn c with closePending := true }).maybeClosed c

def fireVersionChange (p : Processing) : Connections × List ConnTask :=
  match p.others.filter fun c => !(k.conn c).closePending with
  | [] => ({ k with processing := some p },[.afterVersionChange])
  | list =>
    ({ k with processing := some { p with left := list.length } },list.map .versionChange)

def finishOpen (req : Nat) (conn : Option Nat) : Connections × List ConnTask :=
  let (k,tasks) := k.done
  (k,.opened req conn :: tasks)

def finishDelete (req : Nat) : Connections × List ConnTask :=
  let (k,tasks) := k.done
  (k,.deleted req :: tasks)

def newConn (version : Nat) : Connections :=
  { k with
    conn := Function.update k.conn k.nextConn ⟨version,false,false,false,[]⟩
    nextConn := k.nextConn + 1
    conns := k.conns ++ [k.nextConn] }

def addTx (c t : Nat) : Connections :=
  k.setConn c { k.conn c with txs := (k.conn c).txs ++ [t] }

def removeTx (c t : Nat) : Connections :=
  k.setConn c { k.conn c with txs := (k.conn c).txs.erase t }

end Connections

end Sharko.Script.IndexedDb
