import Mathlib
import Sharko.Library.FiniteMap
import Sharko.Library.Runs

/-! Web Storage backing: `localStorage` of the renderer processes. Writes are buffered in a
journal; flushing re-reads the file, replays the journal on top and renames a temporary file
into place. The flushes of several processes interleave step by step. -/

namespace Sharko.Script.LocalStorage
open Library

abbrev Area := FiniteMap String String

inductive Op where
  | set (key value : String)
  | remove (key : String)
  | clear

inductive StorageError where
  | quota
  | security (message : String)

structure Storage where
  profileDir : String
  /-- Storage key (serialized origin); none for opaque origins. -/
  origin : Option String
  localArea : Option Area
  journal : List Op
  dirty : Bool
  persist : Bool

/-- The files of a profile: the storage file of an origin, and the temporary copy of it that
the process with the given id writes. -/
inductive File where
  | stored (profileDir name : String)
  | temporary (profileDir name : String) (pid : Nat)
  deriving DecidableEq

/-- The JSON of an area. -/
structure Json (Bytes : Type) where
  toVec : Area → Option Bytes
  fromSlice : Bytes → Option Area

/-- An area can be written, and what was written reads back. -/
def Json.Laws {Bytes : Type} (json : Json Bytes) : Prop :=
  ∀ area, ∃ bytes, json.toVec area = some bytes ∧ json.fromSlice bytes = some area

def quota : Nat := 5 * 1024 * 1024

def utf16Len (s : String) : Nat := (s.toList.map fun c => if c.toNat < 65536 then 1 else 2).sum

def areaSize (a : Area) : Nat :=
  (a.entries.map fun entry => utf16Len entry.1 + utf16Len entry.2).sum

def fileNameFor (origin : String) : String :=
  String.ofList (origin.toList.map fun c =>
    if c.isAlphanum || c == '.' || c == '-' then c else '_') ++ ".json"

def replayOp (area : Area) : Op → Area
  | .set k v => area.insert k v
  | .remove k => area.erase k
  | .clear => ∅

def replay (journal : List Op) (area : Area) : Area := journal.foldl replayOp area

namespace Storage

variable (s : Storage)

def path : Option File :=
  s.origin.bind fun origin =>
    if !s.persist then none else some (.stored s.profileDir (fileNameFor origin))

variable {Bytes : Type} (json : Json Bytes) (disk : File → Option Bytes)

def readArea (file : File) : Area := ((disk file).bind json.fromSlice).getD ∅

def loaded : Except StorageError Area :=
  if s.origin.isNone then
    .error (.security "Storage is disabled for documents with an opaque origin")
  else .ok (s.localArea.getD ((s.path.map (readArea json disk)).getD ∅))

def touch (op : Op) : Storage := { s with journal := s.journal ++ [op],dirty := true }

def get (key : String) : Storage × Except StorageError (Option String) :=
  match s.loaded json disk with
  | .error e => (s,.error e)
  | .ok area => ({ s with localArea := some area },.ok (area.lookup key))

def set (key value : String) : Storage × Except StorageError Unit :=
  match s.loaded json disk with
  | .error e => (s,.error e)
  | .ok area =>
    let s := { s with localArea := some area }
    let old := (area.lookup key).elim 0 fun v => utf16Len key + utf16Len v
    if area.lookup key = some value then (s,.ok ())
    else if areaSize area - old + utf16Len key + utf16Len value ≤ quota then
      ({ s with localArea := some (area.insert key value) }.touch (.set key value),.ok ())
    else (s,.error .quota)

def remove (key : String) : Storage × Except StorageError Unit :=
  match s.loaded json disk with
  | .error e => (s,.error e)
  | .ok area =>
    let s := { s with localArea := some area }
    if (area.lookup key).isSome then
      ({ s with localArea := some (area.erase key) }.touch (.remove key),.ok ())
    else (s,.ok ())

def clear : Storage × Except StorageError Unit :=
  match s.loaded json disk with
  | .error e => (s,.error e)
  | .ok area =>
    let s := { s with localArea := some area }
    if area ≠ ∅ then ({ s with localArea := some ∅ }.touch .clear,.ok ())
    else (s,.ok ())

end Storage

inductive Stage where
  | idle
  | read (journal : List Op) (onDisk : Area)
  | merged (onDisk : Area)
  | written (onDisk : Area)

structure Process where
  storage : Storage
  stage : Stage

/-- What happens in the process with the given id; the file system may refuse. -/
inductive Step where
  | read (pid : Nat)
  | merge (pid : Nat)
  | write (pid : Nat) (ok : Bool)
  | rename (pid : Nat) (ok : Bool)
  deriving DecidableEq

def Step.pid : Step → Nat
  | .read pid => pid
  | .merge pid => pid
  | .write pid _ => pid
  | .rename pid _ => pid

def Step.ok : Step → Bool
  | .write _ ok => ok
  | .rename _ ok => ok
  | _ => true

structure World (Bytes : Type) where
  disk : File → Option Bytes
  proc : Nat → Process

namespace World

variable {Bytes : Type} (json : Json Bytes) (w : World Bytes)

def setProc (pid : Nat) (p : Process) : World Bytes := { w with proc := Function.update w.proc pid p }

def write (file : File) (bytes : Option Bytes) : World Bytes :=
  { w with disk := Function.update w.disk file bytes }

def temporary (file : File) (pid : Nat) : File :=
  match file with
  | .stored dir name => .temporary dir name pid
  | .temporary dir name _ => .temporary dir name pid

def adopt (pid : Nat) (onDisk : Area) : World Bytes :=
  w.setProc pid ⟨{ (w.proc pid).storage with localArea := some onDisk },.idle⟩

def readFile (pid : Nat) : Option (World Bytes) :=
  let p := w.proc pid
  match p.stage with
  | .idle =>
    if p.storage.journal = [] then none
    else
      let storage := { p.storage with journal := [],dirty := false }
      match p.storage.path with
      | none => some (w.setProc pid ⟨storage,.idle⟩)
      | some file =>
        some (w.setProc pid ⟨storage,.read p.storage.journal (Storage.readArea json w.disk file)⟩)
  | _ => none

def merge (pid : Nat) : Option (World Bytes) :=
  let p := w.proc pid
  match p.stage with
  | .read journal onDisk => some (w.setProc pid ⟨p.storage,.merged (replay journal onDisk)⟩)
  | _ => none

def writeCopy (pid : Nat) (ok : Bool) : Option (World Bytes) :=
  let p := w.proc pid
  match p.stage,p.storage.path with
  | .merged onDisk,some file =>
    match json.toVec onDisk with
    | none => some (w.adopt pid onDisk)
    | some bytes =>
      if ok then
        some ((w.write (temporary file pid) (some bytes)).setProc pid ⟨p.storage,.written onDisk⟩)
      else some ((w.write (temporary file pid) none).adopt pid onDisk)
  | _,_ => none

def renameCopy (pid : Nat) (ok : Bool) : Option (World Bytes) :=
  let p := w.proc pid
  match p.stage,p.storage.path with
  | .written onDisk,some file =>
    if ok then
      some (((w.write file (w.disk (temporary file pid))).write (temporary file pid) none).adopt pid onDisk)
    else some (w.adopt pid onDisk)
  | _,_ => none

def step : Step → Option (World Bytes)
  | .read pid => w.readFile json pid
  | .merge pid => w.merge pid
  | .write pid ok => w.writeCopy json pid ok
  | .rename pid ok => w.renameCopy pid ok

end World

def Op.effect (key : String) : Op → Option (Option String)
  | .set k v => if key = k then some (some v) else none
  | .remove k => if key = k then some none else none
  | .clear => some none

def effect (journal : List Op) (key : String) : Option (Option String) :=
  (journal.filterMap (Op.effect key)).getLast?

theorem replayOp_lookup (area : Area) (op : Op) (key : String) :
    (replayOp area op).lookup key = (op.effect key).getD (area.lookup key) := by
  cases op with
  | set k v =>
    simp only [replayOp,Op.effect,FiniteMap.lookup_insert_if]
    split_ifs <;> rfl
  | remove k =>
    simp only [replayOp,Op.effect,FiniteMap.lookup_erase_if]
    split_ifs <;> rfl
  | clear => simp [replayOp,Op.effect]

theorem replay_snoc (journal : List Op) (op : Op) (area : Area) :
    replay (journal ++ [op]) area = replayOp (replay journal area) op := by
  simp [replay]

theorem replay_lookup (journal : List Op) (area : Area) (key : String) :
    (replay journal area).lookup key = (effect journal key).getD (area.lookup key) := by
  induction journal using List.reverseRecOn with
  | nil => rfl
  | append_singleton journal op ih =>
    have last : effect (journal ++ [op]) key = (op.effect key).or (effect journal key) := by
      simp only [effect,List.filterMap_append,List.getLast?_append]
      cases changed : op.effect key <;> simp [changed]
    rw [replay_snoc,replayOp_lookup,last,ih]
    cases op.effect key <;> rfl

/-- The file holds every change of both journals on top of what it held before; a key that
both change is as the one merged last leaves it. -/
def Contains (first last : List Op) (before after : Area) : Prop :=
  ∀ key, after.lookup key = (effect last key).getD ((effect first key).getD (before.lookup key))

theorem contains_replayed (first last : List Op) (before : Area) :
    Contains first last before (replay last (replay first before)) := by
  intro key
  rw [replay_lookup,replay_lookup]

/-- The changes of a journal that gets lost are not missed: where the other journal leaves the
key alone, or was merged earlier, the key has the value anyway. -/
def Unmissed (before : Area) (lost kept : List Op) (later : Prop) : Prop :=
  ∀ key value, effect lost key = some value → (later ∨ effect kept key = none) →
    (effect kept key).getD (before.lookup key) = value

theorem contains_lost_first (lost kept : List Op) (before : Area) :
    Contains lost kept before (replay kept before) ↔ Unmissed before lost kept False := by
  constructor
  · intro contains key value changed untouched
    have here := contains key
    rw [replay_lookup,changed,untouched.resolve_left not_false] at here
    rw [untouched.resolve_left not_false]
    exact here
  · intro unmissed key
    rw [replay_lookup]
    cases kept_ : effect kept key with
    | some value => rfl
    | none =>
      cases lost_ : effect lost key with
      | none => rfl
      | some value =>
        have here := unmissed key value lost_ (Or.inr kept_)
        rw [kept_] at here
        exact here

theorem contains_lost_last (lost kept : List Op) (before : Area) :
    Contains kept lost before (replay kept before) ↔ Unmissed before lost kept True := by
  constructor
  · intro contains key value changed _
    have here := contains key
    rw [replay_lookup,changed] at here
    exact here
  · intro unmissed key
    rw [replay_lookup]
    cases lost_ : effect lost key with
    | none => rfl
    | some value => exact unmissed key value lost_ (Or.inl trivial)

namespace Storage

variable {Bytes : Type} {json : Json Bytes} {disk : File → Option Bytes} {s : Storage}

/-- The area that script sees is what the journal makes of an earlier one. -/
def Accounts (json : Json Bytes) (disk : File → Option Bytes) (base : Area) (s : Storage) : Prop :=
  s.loaded json disk = .ok (replay s.journal base)

theorem loaded_allowed {area : Area} (loaded : s.loaded json disk = .ok area) : s.origin.isNone = false := by
  unfold Storage.loaded at loaded
  split at loaded
  case isTrue => cases loaded
  case isFalse allowed => exact Bool.eq_false_of_not_eq_true allowed

end Storage

section Flush

variable {Bytes : Type} (json : Json Bytes)

/-- Writes buffered changes to disk (merges them with the current file); the file system may
refuse to write or to rename. -/
def Storage.flush (disk : File → Option Bytes) (s : Storage) (pid : Nat) (written renamed : Bool) :
    (File → Option Bytes) × Storage :=
  if s.journal = [] then (disk,{ s with dirty := false })
  else
    match s.path with
    | none => (disk,{ s with journal := [],dirty := false })
    | some file =>
      let onDisk := replay s.journal (Storage.readArea json disk file)
      let tmp := World.temporary file pid
      let disk :=
        match json.toVec onDisk with
        | none => disk
        | some bytes =>
          if written then
            let disk := Function.update disk tmp (some bytes)
            if renamed then Function.update (Function.update disk file (disk tmp)) tmp none else disk
          else Function.update disk tmp none
      (disk,{ s with localArea := some onDisk,journal := [],dirty := false })

theorem path_stored {s : Storage} {file : File} (found : s.path = some file) :
    ∃ name, file = .stored s.profileDir name := by
  obtain ⟨origin,-,kept⟩ := Option.bind_eq_some_iff.mp found
  split at kept
  · cases kept
  · exact ⟨_,(Option.some.inj kept).symm⟩

end Flush

end Sharko.Script.LocalStorage
