import Mathlib
import Sharko.Script.IndexedDb.Rows

/-! Object stores with their indexes, and the operations on them. Every change pushes its
inverse onto an undo log; a log is kept here with its newest entry first. -/

namespace Sharko.Script.IndexedDb

def text (s : String) : Text := s.toList.map fun c => Fin.ofNat 65536 c.toNat

structure DomError where
  name : String
  message : Text
  deriving DecidableEq

structure IndexData where
  name : Text
  keyPath : KeyPath
  unique : Bool
  multiEntry : Bool
  rows : List IndexRow
  populated : Bool
  deleted : Bool

/-- A store with every index ever made on it, by number. -/
structure StoreData where
  name : Text
  keyPath : Option KeyPath
  autoIncrement : Bool
  nextKey : Option Nat
  rows : List Row
  indexes : Text → Option Nat
  maintained : List Nat
  deleted : Bool
  index : Nat → IndexData

def StoreData.setIndex (s : StoreData) (i : Nat) (idx : IndexData) : StoreData :=
  { s with index := Function.update s.index i idx }

def StoreData.setIndexRows (s : StoreData) (i : Nat) (rows : List IndexRow) : StoreData :=
  s.setIndex i { s.index i with rows }

/-- The functions that the operations push onto the log. -/
inductive StoreUndo where
  | removeRow (row : Row)
  | insertRow (row : Row)
  | removeIndexRow (i : Nat) (row : IndexRow)
  | insertIndexRow (i : Nat) (row : IndexRow)
  | spliceIn (start : Nat) (items : List Row)
  | setIndexRows (i : Nat) (old : List IndexRow)
  | setNextKey (old : Option Nat)
  | unpopulate (i : Nat)
  | dropIndex (name : Text) (i : Nat)
  | restoreIndex (name : Text) (i : Nat)
  | maintain (i : Nat)
  | renameIndex (i : Nat) (name old : Text)

def spliceIn (rows : List Row) (start : Nat) (items : List Row) : List Row :=
  rows.take start ++ items ++ rows.drop start

def revert (s : StoreData) : StoreUndo → StoreData
  | .removeRow row => { s with rows := s.rows.eraseIdx (lowerIdx s.rows row.key (some row.key)) }
  | .insertRow row =>
    { s with rows := s.rows.insertIdx (lowerIdx s.rows row.key (some row.key)) row }
  | .removeIndexRow i row =>
    s.setIndexRows i
      ((s.index i).rows.eraseIdx (lowerIdx (s.index i).rows row.key (some row.pk)))
  | .insertIndexRow i row =>
    s.setIndexRows i
      ((s.index i).rows.insertIdx (lowerIdx (s.index i).rows row.key (some row.pk)) row)
  | .spliceIn start items => { s with rows := spliceIn s.rows start items }
  | .setIndexRows i old => s.setIndexRows i old
  | .setNextKey old => { s with nextKey := old }
  | .unpopulate i => s.setIndex i { s.index i with populated := false }
  | .dropIndex name i =>
    { s with
      indexes := Function.update s.indexes name none
      maintained := s.maintained.erase i
      index := Function.update s.index i { s.index i with deleted := true } }
  | .restoreIndex name i =>
    { s with
      indexes := Function.update s.indexes name (some i)
      index := Function.update s.index i { s.index i with deleted := false } }
  | .maintain i =>
    { s with maintained := if i ∈ s.maintained then s.maintained else s.maintained ++ [i] }
  | .renameIndex i name old =>
    { s with
      indexes := Function.update (Function.update s.indexes name none) old (some i)
      index := Function.update s.index i { s.index i with name := old } }

/-- A store on which an operation is at work, with what the operation pushed onto the log
and whether it set the transaction's `dirty`. -/
structure Work where
  store : StoreData
  undo : List StoreUndo
  dirty : Bool

def Work.start (store : StoreData) : Work := ⟨store,[],false⟩

def Work.push (w : Work) (store : StoreData) (inverse : StoreUndo) : Work :=
  { w with store, undo := inverse :: w.undo }

def rowsInsert (w : Work) (row : Row) : Work :=
  w.push
    { w.store with rows := w.store.rows.insertIdx (upperIdx w.store.rows row.key (some row.key)) row }
    (.removeRow row)

def rowsRemove (w : Work) (row : Row) : Work :=
  let i := lowerIdx w.store.rows row.key (some row.key)
  match w.store.rows[i]? with
  | none => w
  | some found =>
    if found.id = row.id then
      w.push { w.store with rows := w.store.rows.eraseIdx i } (.insertRow row)
    else w

def indexRowsInsert (w : Work) (i : Nat) (row : IndexRow) : Work :=
  let rows := (w.store.index i).rows
  w.push (w.store.setIndexRows i (rows.insertIdx (upperIdx rows row.key (some row.pk)) row))
    (.removeIndexRow i row)

def indexRowsRemove (w : Work) (i : Nat) (row : IndexRow) : Work :=
  let rows := (w.store.index i).rows
  let j := lowerIdx rows row.key (some row.pk)
  if rows[j]? = some row then
    w.push (w.store.setIndexRows i (rows.eraseIdx j)) (.insertIndexRow i row)
  else w

variable (blobs : Blobs)

def indexKeysOf (idx : IndexData) (value : Value) : List Key :=
  keysOf idx.keyPath idx.multiEntry (value.read blobs)

def hasKey (rows : List IndexRow) (k : Key) : Bool :=
  rows[lowerIdx rows k none]?.any fun row => cmpKeys row.key k == .eq

def notUnique (name : Text) : DomError :=
  ⟨"ConstraintError",text "Unable to add key to index '" ++ name ++
    text "': at least one key does not satisfy the uniqueness requirements."⟩

/-- An unpopulated index is left alone: its creation request fills it. -/
def indexAdd (w : Work) (i : Nat) (row : Row) : Work × Option DomError :=
  let idx := w.store.index i
  if !idx.populated then (w,none)
  else
    let keys := indexKeysOf blobs idx row.value
    if idx.unique && keys.any (hasKey idx.rows) then (w,some (notUnique idx.name))
    else (keys.foldl (fun w k => indexRowsInsert w i ⟨k,row.key,row⟩) w,none)

def indexRemoveKey (row : Row) (i : Nat) (w : Work) (k : Key) : Work :=
  let rows := (w.store.index i).rows
  match rows[lowerIdx rows k (some row.key)]? with
  | none => w
  | some found => if found.record.id = row.id then indexRowsRemove w i found else w

def indexRemove (row : Row) (w : Work) (i : Nat) : Work :=
  let idx := w.store.index i
  if !idx.populated then w
  else (indexKeysOf blobs idx row.value).foldl (indexRemoveKey row i) w

def indexAddAll (row : Row) : List Nat → Work → Work × Option DomError
  | [],w => (w,none)
  | i :: rest,w =>
    match indexAdd blobs w i row with
    | (w,some error) => (w,some error)
    | (w,none) => indexAddAll row rest w

def indexAddRows (i : Nat) : List Row → Work → Work × Option DomError
  | [],w => (w,none)
  | row :: rest,w =>
    match indexAdd blobs w i row with
    | (w,some error) => (w,some error)
    | (w,none) => indexAddRows i rest w

def indexPopulate (w : Work) (i : Nat) : Work × Option DomError :=
  let w := w.push (w.store.setIndex i { w.store.index i with populated := true }) (.unpopulate i)
  indexAddRows blobs i w.store.rows w

def indexUnmaintain (w : Work) (i : Nat) : Work :=
  w.push { w.store with maintained := w.store.maintained.erase i } (.maintain i)

def storeRowRemove (w : Work) (row : Row) : Work :=
  let w := rowsRemove w row
  w.store.maintained.foldl (indexRemove blobs row) w

def dropGone (removed : List Row) (w : Work) (i : Nat) : Work :=
  let old := (w.store.index i).rows
  let kept := old.filter fun r => !removed.any fun row => row.id = r.record.id
  if kept.length = old.length then w
  else w.push (w.store.setIndexRows i kept) (.setIndexRows i old)

def cutRows (w : Work) (s e : Nat) : Work :=
  let removed := (w.store.rows.take e).drop s
  let w := w.push { w.store with rows := w.store.rows.take s ++ w.store.rows.drop e }
    (.spliceIn s removed)
  w.store.maintained.foldl (dropGone removed) w

def storeDelete (w : Work) (range : Option KeyRange) : Work :=
  let (s,e) := spanOf w.store.rows range
  if e = s then w
  else
    let w := { w with dirty := true }
    if e - s ≤ 8 then ((w.store.rows.take e).drop s).foldl (storeRowRemove blobs) w
    else cutRows w s e

def maxGenerated : Nat := 9007199254740992

/-- The number after `n`: exact up to 2^53, then Infinity. -/
def nextNumber (n : Nat) : Option Nat := if n ≥ maxGenerated then none else some (n + 1)

def generatorExhausted : DomError :=
  ⟨"ConstraintError",text "The key generator has reached its maximum value."⟩

def generateKey (w : Work) : Work × Except DomError Nat :=
  match w.store.nextKey with
  | none => (w,.error generatorExhausted)
  | some cur =>
    if cur > maxGenerated then (w,.error generatorExhausted)
    else
      (w.push { w.store with nextKey := nextNumber cur } (.setNextKey (some cur)),.ok cur)

def generatorFloor : Number → Option Int
  | none => none
  | some none => some maxGenerated
  | some (some v) => some ⌊min v maxGenerated⌋

def updateKeyGenerator (w : Work) (key : Key) : Work :=
  match key with
  | .number v =>
    match generatorFloor v,w.store.nextKey with
    | some floor,some cur =>
      if floor < cur then w
      else w.push { w.store with nextKey := nextNumber floor.toNat } (.setNextKey (some cur))
    | _,_ => w
  | _ => w

def findRow (rows : List Row) (key : Key) : Option Row :=
  rows[lowerIdx rows key none]?.filter fun row => cmpKeys row.key key == .eq

def addRecord (id : Nat) (w : Work) (value : Value) (key : Key) : Work × Except DomError Key :=
  let row : Row := ⟨id,key,value⟩
  match indexAddAll blobs row w.store.maintained (rowsInsert w row) with
  | (w,some error) => (w,.error error)
  | (w,none) => ({ w with dirty := true },.ok key)

def keyExists : DomError := ⟨"ConstraintError",text "Key already exists in the object store."⟩

def replaceRecord (id : Nat) (w : Work) (value : Value) (key : Key) (noOverwrite : Bool) :
    Work × Except DomError Key :=
  match findRow w.store.rows key with
  | none => addRecord blobs id w value key
  | some existing =>
    if noOverwrite then (w,.error keyExists)
    else addRecord blobs id (storeRowRemove blobs w existing) value key

/-- A generated key goes into the clone, or into the page's own Blob. -/
def injectInto (kp : Option KeyPath) (value : Value) (key : Nat) : Value × Blobs :=
  match kp with
  | some (.one path) =>
    match value with
    | .clone graph => (.clone (injectKey graph path ((key : ℚ) : Number)),blobs)
    | .blob id =>
      (.blob id,Function.update blobs id (injectKey (blobs id) path ((key : ℚ) : Number)))
  | _ => (value,blobs)

def keyOf (n : Nat) : Key := .number ((n : ℚ) : Number)

/-- "Store a record into an object store"; without a key one is generated, which a store
without a generator is never asked for. -/
def storeRecord (id : Nat) (w : Work) (value : Value) (key : Option Key) (noOverwrite : Bool) :
    Work × Blobs × Except DomError Key :=
  match key with
  | none =>
    match generateKey w with
    | (w,.error error) => (w,blobs,.error error)
    | (w,.ok cur) =>
      let (value,blobs) := injectInto blobs w.store.keyPath value cur
      let (w,result) := replaceRecord blobs id w value (keyOf cur) noOverwrite
      (w,blobs,result)
  | some key =>
    let w := if w.store.autoIncrement then updateKeyGenerator w key else w
    let (w,result) := replaceRecord blobs id w value key noOverwrite
    (w,blobs,result)

end Sharko.Script.IndexedDb
