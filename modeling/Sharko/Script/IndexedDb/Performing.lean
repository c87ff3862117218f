import Sharko.Script.IndexedDb.Transactions

/-! What a request does when its turn comes: reading a range, moving a cursor, and changing one
store. -/

namespace Sharko.Script.IndexedDb

/-- A row of a store or of an index, with the value it refers to. -/
structure Entry where
  key : Key
  pk : Key
  value : Value

instance : Keyed Entry := ⟨Entry.key,Entry.pk⟩

def Content.rowsOf (c : Content) (source : Source) : List Entry :=
  match source.index with
  | none => (c.store source.store).rows.map fun row => ⟨row.key,row.key,row.value⟩
  | some i =>
    ((c.store source.store).index i).rows.map fun row => ⟨row.key,row.pk,row.record.value⟩

structure Performed where
  content : Content
  cursor : Nat → Cursor
  blobs : Blobs
  nextRow : Nat
  undo : List Undo
  dirty : Bool
  outcome : Except DomError Result

namespace World

variable (σ : World)

def reading (result : Result) : Performed :=
  ⟨σ.content,σ.cursor,σ.blobs,σ.nextRow,[],false,.ok result⟩

def opGet (source : Source) (range : Option KeyRange) (keyOnly : Bool) : Result :=
  let rows := σ.content.rowsOf source
  let (s,e) := spanOf rows range
  if s = e then .undefined
  else
    match rows[s]? with
    | none => .undefined
    | some row => if keyOnly then .key row.pk else .value row.value

def opGetAll (source : Source) (kind : AllKind) (range : Option KeyRange) (dir : Direction)
    (limit : Nat) : Result :=
  let rows := collect (σ.content.rowsOf source) range dir limit
  match kind with
  | .key => .keys (rows.map Entry.pk)
  | .value => .values (rows.map Entry.value)
  | .record => .records (rows.map fun row => (row.key,row.pk,row.value))

def opCount (source : Source) (range : Option KeyRange) : Result :=
  let (s,e) := spanOf (σ.content.rowsOf source) range
  .count (e - s)

def iterateOnce (rows : List Entry) (c : Cursor) (key pk position objPos : Option Key) :
    Option Entry :=
  let uniq := c.direction = .nextunique ∨ c.direction = .prevunique
  -- index cursors on the plain directions also order equal keys by the primary key
  let osp := if c.source.index.isSome ∧ ¬uniq then objPos else none
  let (s,e) := spanOf rows c.range
  if c.direction = .next ∨ c.direction = .nextunique then
    let i := match key with
      | none => s
      | some key => max s (lowerIdx rows key pk)
    let i := match position with
      | none => i
      | some pos => max i (upperIdx rows pos osp)
    if i < e then rows[i]? else none
  else
    let j := match key with
      | none => e
      | some key => min e (upperIdx rows key pk)
    let j := match position with
      | none => j
      | some pos => min j (lowerIdx rows pos osp)
    if j > s then
      rows[j - 1]?.bind fun found =>
        if c.direction = .prevunique then rows[lowerIdx rows found.key none]? else some found
    else none

def iterateRows (rows : List Entry) (c : Cursor) (key pk : Option Key) :
    Nat → Option Key → Option Key → Option Entry
  | 0,_,_ => none
  | n + 1,position,objPos =>
    match iterateOnce rows c key pk position objPos with
    | none => none
    | some found =>
      if n = 0 then some found else iterateRows rows c key pk n (some found.key) (some found.pk)

def iterate (id : Nat) (key pk : Option Key) (count : Nat) : Cursor × Result :=
  let c := σ.cursor id
  match iterateRows (σ.content.rowsOf c.source) c key pk count c.position c.objPos with
  | none =>
    ({ c with
        key := none,pk := none,value := none
        objPos := if c.source.index.isSome then none else c.objPos },.cursor none)
  | some found =>
    let value := if c.keyOnly then none else some found.value
    ({ c with
        position := some found.key,objPos := some found.pk,key := some found.key
        pk := some found.pk,value,gotValue := true },.cursor (some (found.key,found.pk,value)))

def working (s : Nat) (w : Work) (blobs : Blobs) (nextRow : Nat) (outcome : Except DomError Result) :
    Performed :=
  ⟨σ.content.setStore s w.store,σ.cursor,blobs,nextRow,w.undo.map (.store s),w.dirty,outcome⟩

def outcomeOf : Option DomError → Except DomError Result
  | none => .ok .undefined
  | some error => .error error

def perform : Op → Performed
  | .get source range keyOnly => σ.reading (σ.opGet source range keyOnly)
  | .getAll source kind range dir limit => σ.reading (σ.opGetAll source kind range dir limit)
  | .count source range => σ.reading (σ.opCount source range)
  | .iterate id key pk count =>
    let (c,result) := σ.iterate id key pk count
    { σ.reading result with cursor := Function.update σ.cursor id c }
  | .delete s range =>
    σ.working s (storeDelete σ.blobs (.start (σ.content.store s)) range) σ.blobs σ.nextRow
      (.ok .undefined)
  | .record s value key noOverwrite =>
    let (w,blobs,result) :=
      storeRecord σ.blobs σ.nextRow (.start (σ.content.store s)) value key noOverwrite
    σ.working s w blobs (σ.nextRow + 1) (result.map .key)
  | .populate s i =>
    let (w,error) := indexPopulate σ.blobs (.start (σ.content.store s)) i
    σ.working s w σ.blobs σ.nextRow (outcomeOf error)
  | .unmaintain s i =>
    σ.working s (indexUnmaintain (.start (σ.content.store s)) i) σ.blobs σ.nextRow (.ok .undefined)

end World

end Sharko.Script.IndexedDb
