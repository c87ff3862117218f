import Mathlib
import Sharko.Library.Text

/-! Automatic updates: which versions the update check accepts, and how a package is unpacked
next to the running version. Unpacking is the list of the file operations it makes, in order;
it may stop after any of them. -/

namespace Sharko.Browser.Update
open Library

abbrev Text := List Char

abbrev Path := List Text

abbrev Disk := Path → Option ByteArray

structure Platform where
  windows : Bool
  exe : Text
  currentDir : Text → Path

structure ZipEntry where
  name : Text
  data : ByteArray

def trim (s : Text) : Text :=
  ((s.dropWhile Text.isWhitespace).reverse.dropWhile Text.isWhitespace).reverse

def parseU64 (p : Text) : Option Nat :=
  let digits := if p.head? = some '+' then p.tail else p
  if digits ≠ [] ∧ digits.all (fun c => '0' ≤ c ∧ c ≤ '9') then
    let value := digits.foldl (fun n c => 10 * n + (c.toNat - '0'.toNat)) 0
    if value < 2 ^ 64 then some value else none
  else none

def isSuffixMark (c : Char) : Bool := c = '-' || c = '+'

def parseVersion (s : Text) : Option (List Nat) :=
  let core := ((trim s).dropWhile (· = 'v')).takeWhile fun c => !isSuffixMark c
  (core.splitOn '.').mapM parseU64

def isNewer (a b : Text) : Bool :=
  match parseVersion a,parseVersion b with
  | some a,some b => b < a
  | _,_ => false

def encode (t : Text) : ByteArray := (String.ofList t).toUTF8

def decode (bytes : ByteArray) : Option Text := (String.fromUTF8? bytes).map String.toList

theorem decode_encode (t : Text) : decode (encode t) = some t := by
  have valid : (String.ofList t).toUTF8.IsValidUTF8 := (String.ofList t).isValidUTF8
  rw [decode,encode,String.fromUTF8?,dif_pos valid]
  exact congrArg some String.toList_ofList

def accepts (disk : Disk) (root : Path) (version current : Text) (isDir : Bool) : Bool :=
  isNewer version current && (parseVersion version).isSome &&
    !(version.any fun c => c = '/' || c = '\\') &&
    !(isDir && ((disk (root ++ ["version".toList])).bind decode).map trim = some version)

inductive FileOp where
  | removeDirAll (p : Path)
  | createDirAll (p : Path)
  | write (p : Path) (data : ByteArray)
  | renameDir (source target : Path)
  | renameFile (source target : Path)

def FileOp.apply (disk : Disk) : FileOp → Disk
  | .removeDirAll p => fun q => if p <+: q then none else disk q
  | .createDirAll _ => disk
  | .write p data => Function.update disk p (some data)
  | .renameDir source target => fun q =>
    if target <+: q then disk (source ++ q.drop target.length)
    else if source <+: q then none
    else disk q
  | .renameFile source target =>
    Function.update (Function.update disk target (disk source)) source none

def run (disk : Disk) (ops : List FileOp) : Disk := ops.foldl FileOp.apply disk

def FileOp.writes : FileOp → Option Path
  | .write p _ => some p
  | .renameFile _ target => some target
  | _ => none

def drive (platform : Platform) : Text → Option (Text × Text)
  | letter :: ':' :: rest =>
    if platform.windows && letter.isAlpha then some ([letter],rest) else none
  | _ => none

def push (p : Path) (c : Text) : Path :=
  if c = [] ∨ c = ".".toList then p
  else if c = "..".toList then p.dropLast
  else p ++ [c]

def join (platform : Platform) (p : Path) (c : Text) : Path :=
  match drive platform c with
  | some (d,rest) => push (platform.currentDir d) rest
  | none => push p c

section Install

-- `enclosedName` is the zip crate's: the name of an entry as a path, unless it is refused.
variable (platform : Platform) (enclosedName : Text → Option Text) (root : Path) (version : Text)

def staging : Path := root ++ [version ++ ".partial".toList]

def finalDir : Path := root ++ [version]

def isDirName (name : Text) : Bool := name.getLast? = some '/' || name.getLast? = some '\\'

def fileName (entry : ZipEntry) : Option Text :=
  (enclosedName entry.name).bind fun name =>
    if isDirName entry.name then none
    else some (name.map fun c => if c = '\\' then '/' else c)

def unpackedName (entry : ZipEntry) : Option Text :=
  (fileName enclosedName entry).bind fun name =>
    if name = platform.exe then none
    else if (version ++ "/".toList).isPrefixOf name then some (name.drop (version.length + 1))
    else none

def destination (rel : Text) : Path :=
  (rel.splitOn '/').foldl (join platform) (staging root version)

def unpackEntry (entry : ZipEntry) : List FileOp :=
  match unpackedName platform enclosedName version entry with
  | none => []
  | some rel =>
    let dest := destination platform root version rel
    [.createDirAll dest.dropLast,.write dest entry.data]

def newLauncher (entries : List ZipEntry) : Option ByteArray :=
  (entries.reverse.find? fun entry => fileName enclosedName entry = some platform.exe).map
    ZipEntry.data

def versionFile : Path := root ++ ["version".toList]

def versionTmp : Path := root ++ ["version.tmp".toList]

def stagedLauncher : Path := root ++ [platform.exe ++ ".new".toList]

def unpackOps (entries : List ZipEntry) (cleared : Bool) : List FileOp :=
  (if cleared then [.removeDirAll (staging root version)] else []) ++
    [.createDirAll (staging root version)] ++
    entries.flatMap (unpackEntry platform enclosedName root version) ++
    [.removeDirAll (finalDir root version),
      .renameDir (staging root version) (finalDir root version)]

def launcherOps (disk : Disk) (entries : List ZipEntry) : List FileOp :=
  match newLauncher platform enclosedName entries with
  | none => []
  | some bytes =>
    if (disk (root ++ [platform.exe])).getD ByteArray.empty ≠ bytes then
      [.write (stagedLauncher platform root) bytes]
    else []

def switchOps : List FileOp :=
  [.write (versionTmp root) (encode version),.renameFile (versionTmp root) (versionFile root)]

def installPackage (disk : Disk) (entries : List ZipEntry) (cleared : Bool) : List FileOp :=
  let unpack := unpackOps platform enclosedName root version entries cleared
  unpack ++ launcherOps platform enclosedName root (run disk unpack) entries ++ switchOps root version

end Install

/-- What the components of a relative path do: how far up from the directory they start at (or
from the current directory of a drive), and down from there. -/
structure Climb where
  drive : Option Text
  ups : Nat
  down : List Text

namespace Climb

variable (platform : Platform) (k : Climb)

def push (c : Text) : Climb :=
  if c = [] ∨ c = ".".toList then k
  else if c = "..".toList then
    if k.down = [] then { k with ups := k.ups + 1 } else { k with down := k.down.dropLast }
  else { k with down := k.down ++ [c] }

def step (c : Text) : Climb :=
  match Update.drive platform c with
  | some (d,rest) => push ⟨some d,0,[]⟩ rest
  | none => k.push c

def reach (start : Path) : Path :=
  let base := k.drive.elim start platform.currentDir
  base.take (base.length - k.ups) ++ k.down

end Climb

def climb (platform : Platform) (rel : Text) : Climb :=
  (rel.splitOn '/').foldl (Climb.step platform) ⟨none,0,[]⟩

/-- The climb comes back down the way it went up, if it goes up at all; from a drive, its current
directory counts. -/
def Climb.Stays (platform : Platform) (start : Path) (k : Climb) : Prop :=
  match k.drive with
  | none => start.drop (start.length - k.ups) <+: k.down
  | some _ => start <+: k.reach platform start

section Contained

variable {platform : Platform} {enclosedName : Text → Option Text} {root : Path} {version : Text}

theorem push_reach (start : Path) (k : Climb) (c : Text) :
    push (k.reach platform start) c = (k.push c).reach platform start := by
  unfold push Climb.push
  split_ifs with none_ up top
  · rfl
  · unfold Climb.reach
    dsimp only
    rw [top,List.append_nil,List.append_nil]
    generalize k.drive.elim start platform.currentDir = base
    rw [List.dropLast_eq_take,List.take_take,List.length_take]
    congr 1
    omega
  · exact List.dropLast_append_of_ne_nil top
  · exact List.append_assoc _ _ _

theorem join_reach (start : Path) (k : Climb) (c : Text) :
    join platform (k.reach platform start) c = (k.step platform c).reach platform start := by
  unfold join Climb.step
  split
  case h_1 d rest _ =>
    have begin_ : Climb.reach platform ⟨some d,0,[]⟩ start = platform.currentDir d := by
      simp [Climb.reach]
    rw [← push_reach,begin_]
  case h_2 => exact push_reach start k c

theorem fold_reach (start : Path) (k : Climb) (cs : List Text) :
    cs.foldl (join platform) (k.reach platform start) =
      (cs.foldl (Climb.step platform) k).reach platform start := by
  induction cs generalizing k with
  | nil => rfl
  | cons c rest ih => rw [List.foldl_cons,List.foldl_cons,join_reach,ih]

theorem destination_eq (rel : Text) : destination platform root version rel =
    (climb platform rel).reach platform (staging root version) := by
  have begin_ : Climb.reach platform ⟨none,0,[]⟩ (staging root version) = staging root version := by
    simp [Climb.reach]
  rw [climb,← fold_reach,begin_,destination]

theorem destination_below (rel : Text) : staging root version <+: destination platform root version rel ↔
      (climb platform rel).Stays platform (staging root version) := by
  rw [destination_eq]
  unfold Climb.Stays
  generalize climb platform rel = k
  generalize staging root version = start
  split
  case h_1 noDrive =>
    rw [Climb.reach,noDrive]
    dsimp only [Option.elim]
    conv_lhs =>
      enter [1]
      rw [← List.take_append_drop (start.length - k.ups) start]
    exact List.prefix_append_right_inj _
  case h_2 => exact Iff.rfl

def Switches (platform : Platform) (root : Path) (p : Path) : Prop :=
  p = versionFile root ∨ p = versionTmp root ∨ p = stagedLauncher platform root

/-- Every entry of a package that is unpacked stays below the staging directory, or leads to one
of the files that installing writes anyway. -/
def Contained (platform : Platform) (enclosedName : Text → Option Text) (root : Path)
    (version : Text) (entries : List ZipEntry) : Prop :=
  ∀ entry ∈ entries, ∀ rel, unpackedName platform enclosedName version entry = some rel →
    (climb platform rel).Stays platform (staging root version) ∨
      Switches platform root ((climb platform rel).reach platform (staging root version))

theorem unpack_writes (entries : List ZipEntry) (cleared : Bool) :
    (unpackOps platform enclosedName root version entries cleared).filterMap FileOp.writes =
      entries.filterMap fun entry =>
        (unpackedName platform enclosedName version entry).map (destination platform root version) := by
  have ofEntries : (entries.flatMap (unpackEntry platform enclosedName root version)).filterMap
      FileOp.writes = entries.filterMap fun entry =>
        (unpackedName platform enclosedName version entry).map (destination platform root version) := by
    induction entries with
    | nil => rfl
    | cons entry rest ih =>
      rw [List.flatMap_cons,List.filterMap_append,ih,List.filterMap_cons]
      unfold unpackEntry
      cases unpackedName platform enclosedName version entry <;> rfl
  unfold unpackOps
  rw [List.filterMap_append,List.filterMap_append,List.filterMap_append,ofEntries]
  cases cleared <;> exact List.append_nil _

theorem launcher_writes (disk : Disk) (entries : List ZipEntry) :
    ∀ p ∈ (launcherOps platform enclosedName root disk entries).filterMap FileOp.writes,
      p = stagedLauncher platform root := by
  intro p mem
  unfold launcherOps at mem
  split at mem
  · cases mem
  · split at mem
    · exact List.mem_singleton.mp mem
    · cases mem

/-- Installing writes files only below the staging directory, the version file with its
temporary copy and the new launcher apart, exactly for the packages whose paths stay there. -/
theorem contained_iff (entries : List ZipEntry) :
    (∀ disk cleared,∀ p ∈ (installPackage platform enclosedName root version disk entries
        cleared).filterMap FileOp.writes, staging root version <+: p ∨ Switches platform root p) ↔
    Contained platform enclosedName root version entries := by
  constructor
  · intro allowed entry mem rel unpacked
    rw [← destination_below,← destination_eq]
    refine allowed (fun _ => none) true _ ?_
    rw [installPackage,List.filterMap_append,List.filterMap_append,unpack_writes]
    refine List.mem_append_left _ (List.mem_append_left _ (List.mem_filterMap.mpr ⟨entry,mem,?_⟩))
    rw [unpacked]
    rfl
  · intro contained disk cleared p mem
    rw [installPackage,List.filterMap_append,List.filterMap_append,unpack_writes] at mem
    rcases List.mem_append.mp mem with earlier | switch
    · rcases List.mem_append.mp earlier with unpack | launcher
      · obtain ⟨entry,inside,found⟩ := List.mem_filterMap.mp unpack
        obtain ⟨rel,unpacked,rfl⟩ := Option.map_eq_some_iff.mp found
        rw [destination_below,destination_eq]
        exact contained entry inside rel unpacked
      · exact Or.inr (Or.inr (Or.inr (launcher_writes _ entries p launcher)))
    · right
      rcases List.mem_cons.mp switch with rfl | last
      · exact Or.inr (Or.inl rfl)
      · exact Or.inl (List.mem_singleton.mp last)

end Contained

namespace Sample

def platform : Platform := ⟨false,"browser".toList,fun _ => []⟩

/-- Accepts the relative names without a point at which more `..` than folders have come. -/
def enclosedName (name : Text) : Option Text :=
  let depth := (name.splitOn '/').foldl
    (fun (depth : Option Nat) c => depth.bind fun n =>
      if c = [] ∨ c = ".".toList then some n
      else if c = "..".toList then (if n = 0 then none else some (n - 1))
      else some (n + 1)) (some 0)
  if name.head? = some '/' then none else depth.map fun _ => name

def root : Path := ["opt".toList,"sharko".toList]

def entry : ZipEntry := ⟨"0.2.0/..\\..\\evil".toList,ByteArray.empty⟩

end Sample

/-- Backslashes are no separators when the name is checked, and become ones after it. -/
theorem backslashes_escape :
    ¬∀ p ∈ (installPackage Sample.platform Sample.enclosedName Sample.root "0.2.0".toList
        (fun _ => none) [Sample.entry] true).filterMap FileOp.writes,
      staging Sample.root "0.2.0".toList <+: p ∨ Switches Sample.platform Sample.root p := by
  have written : ["opt".toList,"evil".toList] ∈ (installPackage Sample.platform Sample.enclosedName
      Sample.root "0.2.0".toList (fun _ => none) [Sample.entry] true).filterMap FileOp.writes := by
    decide
  intro allowed
  have here := allowed _ written
  revert here
  unfold Switches
  decide

end Sharko.Browser.Update
