import Sharko.Browser.VersionNames

/-! Updates that stop at any point leave an installation that the launcher can start: it picks a
version that was completely unpacked, and takes no staging directory for a version. -/

namespace Sharko.Browser.Update
open Library

def FileOp.Touches (here : Path → Prop) (op : FileOp) : Prop :=
  ∀ disk q, ¬here q → op.apply disk q = disk q

theorem run_untouched {here : Path → Prop} {ops : List FileOp} (each : ∀ op ∈ ops, op.Touches here)
    (disk : Disk) {q : Path} (apart : ¬here q) : run disk ops q = disk q := by
  unfold run
  induction ops generalizing disk with
  | nil => rfl
  | cons op rest ih =>
    rw [List.foldl_cons,ih (fun op' mem => each op' (List.mem_cons_of_mem op mem)),
      each op List.mem_cons_self disk q apart]

theorem run_append (disk : Disk) (a b : List FileOp) : run disk (a ++ b) = run (run disk a) b :=
  List.foldl_append

theorem Touches.weaken {here there : Path → Prop} {op : FileOp} (touches : op.Touches here)
    (within : ∀ q, here q → there q) : op.Touches there := fun disk q apart =>
  touches disk q fun inside => apart (within q inside)

theorem removeDirAll_touches (p : Path) : (FileOp.removeDirAll p).Touches (p <+: ·) := by
  intro disk q apart
  exact if_neg apart

theorem removeDirAll_below {p : Path} (disk : Disk) {q : Path} (below : p <+: q) :
    (FileOp.removeDirAll p).apply disk q = none := if_pos below

theorem createDirAll_touches (here : Path → Prop) (p : Path) :
    (FileOp.createDirAll p).Touches here := fun _ _ _ => rfl

theorem write_touches (p : Path) (data : ByteArray) : (FileOp.write p data).Touches (· = p) := by
  intro disk q apart
  exact Function.update_of_ne apart _ _

theorem renameDir_touches (source target : Path) :
    (FileOp.renameDir source target).Touches fun q => source <+: q ∨ target <+: q := by
  intro disk q apart
  obtain ⟨notSource,notTarget⟩ := not_or.mp apart
  exact (if_neg notTarget).trans (if_neg notSource)

theorem renameFile_touches (source target : Path) :
    (FileOp.renameFile source target).Touches fun q => q = source ∨ q = target := by
  intro disk q apart
  obtain ⟨notSource,notTarget⟩ := not_or.mp apart
  exact (Function.update_of_ne notSource _ _).trans (Function.update_of_ne notTarget _ _)

section Unpacking

variable (platform : Platform) (enclosedName : Text → Option Text) (root : Path) (version : Text)

def unpackedFiles (entries : List ZipEntry) : List (Path × ByteArray) :=
  entries.filterMap fun entry => (unpackedName platform enclosedName version entry).map fun rel =>
    (destination platform root version rel,entry.data)

def content (entries : List ZipEntry) (p : Path) : Option ByteArray :=
  ((unpackedFiles platform enclosedName root version entries).reverse.find? fun f =>
    f.1 = p).map Prod.snd

def Unpacked (entries : List ZipEntry) (disk : Disk) : Prop :=
  ∀ rel ≠ [], ∀ data,
    content platform enclosedName root version entries (staging root version ++ rel) = some data →
      disk (root ++ version :: rel) = some data

variable {platform enclosedName root version}

theorem unpackEntry_files (entry : ZipEntry) (disk : Disk) (p : Path) :
    run disk (unpackEntry platform enclosedName root version entry) p =
      (content platform enclosedName root version [entry] p).or (disk p) := by
  cases named : unpackedName platform enclosedName version entry with
  | none => simp [unpackEntry,content,unpackedFiles,named,run]
  | some rel =>
    by_cases here : destination platform root version rel = p
    · subst here
      simp [unpackEntry,content,unpackedFiles,named,run,FileOp.apply]
    · simp [unpackEntry,content,unpackedFiles,named,run,FileOp.apply,here,
        Function.update_of_ne (Ne.symm here)]

theorem content_append (a b : List ZipEntry) (p : Path) :
    content platform enclosedName root version (a ++ b) p = (content platform enclosedName root version b p).or
        (content platform enclosedName root version a p) := by
  unfold content unpackedFiles
  rw [List.filterMap_append,List.reverse_append,List.find?_append]
  cases List.find? _ _ <;> rfl

theorem unpack_files (entries : List ZipEntry) (disk : Disk) (p : Path) :
    run disk (entries.flatMap (unpackEntry platform enclosedName root version)) p =
      (content platform enclosedName root version entries p).or (disk p) := by
  induction entries generalizing disk with
  | nil => rfl
  | cons entry rest ih =>
    rw [List.flatMap_cons,run_append,ih,unpackEntry_files,
      show entry :: rest = [entry] ++ rest from rfl,content_append,Option.or_assoc]

theorem content_some {entries : List ZipEntry} {p : Path} :
    (content platform enclosedName root version entries p).isSome ↔ ∃ entry ∈ entries, ∃ rel,
      unpackedName platform enclosedName version entry = some rel ∧
        destination platform root version rel = p := by
  unfold content unpackedFiles
  rw [Option.isSome_map,List.find?_isSome]
  constructor
  · rintro ⟨file,mem,here⟩
    obtain ⟨entry,inside,found⟩ := List.mem_filterMap.mp (List.mem_reverse.mp mem)
    obtain ⟨rel,unpacked,rfl⟩ := Option.map_eq_some_iff.mp found
    exact ⟨entry,inside,rel,unpacked,of_decide_eq_true here⟩
  · rintro ⟨entry,mem,rel,unpacked,here⟩
    refine ⟨(p,entry.data),List.mem_reverse.mpr (List.mem_filterMap.mpr ⟨entry,mem,?_⟩),
      decide_eq_true rfl⟩
    rw [unpacked,Option.map_some,here]

end Unpacking

section Stopping

variable (platform : Platform) (enclosedName : Text → Option Text) (root : Path) (lib : Text)
  (version : Text) (entries : List ZipEntry)

def Lists (disk : Disk) (listing : List Text) : Prop :=
  ∀ d rel, (disk (root ++ d :: rel)).isSome → d ∈ listing

/-- The installation before an update. `complete` tells the version directories that earlier
installations have unpacked completely. -/
structure Layout (complete : Text → Prop) (current : Text) (disk : Disk) : Prop where
  listed : ∃ listing, Lists root disk listing
  scanned : ∀ d, (disk (root ++ [d,lib])).isSome → (parseVersion d).isSome → complete d
  active : ∀ text, (disk (versionFile root)).bind decode = some text →
    (parseVersion text).isSome ∧ '/' ∉ text
  running : ∃ d, (disk (root ++ [d,lib])).isSome ∧ parseVersion d = parseVersion current
  unfinished : ¬complete (version ++ ".partial".toList)

/-- The directory is a version that was completely unpacked: by an earlier installation, and is
as it was, or by this one. -/
def Whole (complete : Text → Prop) (before disk : Disk) (d : Text) : Prop :=
  (complete d ∧ ∀ rel ≠ [], disk (root ++ d :: rel) = before (root ++ d :: rel)) ∨
    (d = version ∧ Unpacked platform enclosedName root version entries disk)

/-- The launcher starts a complete version; neither its scan nor its cleanup takes the staging
directory for a version. -/
structure Safe (complete : Text → Prop) (before disk : Disk) : Prop where
  selects : ∀ listing, Lists root disk listing → ∃ d,
    Launcher.selectLibrary platform disk root lib listing = .ok (root ++ [d,lib]) ∧
      Whole platform enclosedName root version entries complete before disk d
  ignores : ∀ listing, Lists root disk listing → version ++ ".partial".toList ∉
    (Launcher.installedVersions disk root lib listing).map Prod.snd
  keeps : ∀ listing, Lists root disk listing → ∀ activeDir, version ++ ".partial".toList ∉
    Launcher.cleanupOldVersions disk root lib listing activeDir

/-- What an update that has stopped somewhere leaves. -/
structure Point (before disk : Disk) : Prop where
  others : ∀ d rel, d ≠ version → d ≠ version ++ ".partial".toList → rel ≠ [] →
    disk (root ++ d :: rel) = before (root ++ d :: rel)
  staged : (disk (staging root version ++ [lib])).isSome →
    (before (staging root version ++ [lib])).isSome ∨
      (content platform enclosedName root version entries (staging root version ++ [lib])).isSome
  target : (∀ rel ≠ [], disk (root ++ version :: rel) = before (root ++ version :: rel)) ∨
    (∀ rel ≠ [], disk (root ++ version :: rel) = none) ∨
      Unpacked platform enclosedName root version entries disk
  active : disk (versionFile root) = before (versionFile root) ∨
    (disk (versionFile root) = some (encode version) ∧
      Unpacked platform enclosedName root version entries disk)

def fillOps (cleared : Bool) : List FileOp :=
  (if cleared then [.removeDirAll (staging root version)] else []) ++
    [.createDirAll (staging root version)] ++
    entries.flatMap (unpackEntry platform enclosedName root version)

end Stopping

section Points

variable {platform : Platform} {enclosedName : Text → Option Text} {root : Path} {lib : Text}
  {version : Text} {entries : List ZipEntry}

theorem below_child {x d : Text} {rel : Path} : root ++ [x] <+: root ++ d :: rel ↔ x = d := by
  rw [List.prefix_append_right_inj,List.cons_prefix_cons]
  exact and_iff_left (List.nil_prefix)

theorem deeper {x d : Text} {rel : Path} (deep : rel ≠ []) : root ++ d :: rel ≠ root ++ [x] := by
  intro same
  exact deep (List.cons.inj (List.append_cancel_left same)).2

theorem longer (version : Text) : version ++ ".partial".toList ≠ version := by
  intro same
  have := congrArg List.length same
  rw [List.length_append] at this
  exact absurd this (by simp)

theorem staging_append (rel : Path) :
    staging root version ++ rel = root ++ (version ++ ".partial".toList) :: rel :=
  List.append_assoc _ _ _

theorem staging_beside (rel : Path) : ¬finalDir root version <+: staging root version ++ rel := by
  rw [staging_append]
  exact fun below => longer version (below_child.mp below).symm

theorem fill_mem {cleared : Bool} {op : FileOp}
    (mem : op ∈ fillOps platform enclosedName root version entries cleared) :
    op = .removeDirAll (staging root version) ∨ (∃ p, op = .createDirAll p) ∨
      ∃ entry ∈ entries, ∃ rel, unpackedName platform enclosedName version entry = some rel ∧
        op = .write (destination platform root version rel) entry.data := by
  unfold fillOps at mem
  rcases List.mem_append.mp mem with first | unpack
  · rcases List.mem_append.mp first with clear | create
    · cases cleared with
      | false => cases clear
      | true => exact Or.inl (List.mem_singleton.mp clear)
    · exact Or.inr (Or.inl ⟨_,List.mem_singleton.mp create⟩)
  · obtain ⟨entry,inside,ofEntry⟩ := List.mem_flatMap.mp unpack
    unfold unpackEntry at ofEntry
    split at ofEntry
    case h_1 => cases ofEntry
    case h_2 rel unpacked =>
      rcases List.mem_cons.mp ofEntry with rfl | write
      · exact Or.inr (Or.inl ⟨_,rfl⟩)
      · exact Or.inr (Or.inr ⟨entry,inside,rel,unpacked,List.mem_singleton.mp write⟩)

/-- Every file of the package goes below the staging directory. -/
def Inside (platform : Platform) (enclosedName : Text → Option Text) (root : Path)
    (version : Text) (entries : List ZipEntry) : Prop :=
  ∀ entry ∈ entries, ∀ rel, unpackedName platform enclosedName version entry = some rel →
    (climb platform rel).Stays platform (staging root version)

theorem fill_touches (inside : Inside platform enclosedName root version entries) {cleared : Bool} :
    ∀ op ∈ fillOps platform enclosedName root version entries cleared,
      op.Touches (staging root version <+: ·) := by
  intro op mem
  rcases fill_mem mem with rfl | ⟨p,rfl⟩ | ⟨entry,packed,rel,unpacked,rfl⟩
  · exact removeDirAll_touches _
  · exact createDirAll_touches _ p
  · refine Touches.weaken (write_touches _ _) ?_
    rintro q rfl
    exact (destination_below rel).mpr (inside entry packed rel unpacked)

theorem fill_adds {cleared : Bool} {q : Path} {ops : List FileOp} {disk : Disk}
    (filling : ∀ op ∈ ops, op ∈ fillOps platform enclosedName root version entries cleared)
    (there : (run disk ops q).isSome) :
    (disk q).isSome ∨ (content platform enclosedName root version entries q).isSome := by
  induction ops generalizing disk with
  | nil => exact Or.inl there
  | cons op rest ih =>
    rcases ih (fun op' mem => filling op' (List.mem_cons_of_mem op mem)) there with before | packed
    · rcases fill_mem (filling op List.mem_cons_self) with rfl | ⟨p,rfl⟩ |
        ⟨entry,mem,rel,unpacked,rfl⟩
      · by_cases below : staging root version <+: q
        · rw [removeDirAll_below disk below] at before
          cases before
        · rw [removeDirAll_touches _ _ _ below] at before
          exact Or.inl before
      · exact Or.inl before
      · by_cases here : destination platform root version rel = q
        · exact Or.inr (content_some.mpr ⟨entry,mem,rel,unpacked,here⟩)
        · rw [write_touches _ _ _ _ (Ne.symm here)] at before
          exact Or.inl before
    · exact Or.inr packed

theorem fill_files {cleared : Bool} (disk : Disk) {q : Path} {data : ByteArray}
    (packed : content platform enclosedName root version entries q = some data) :
    run disk (fillOps platform enclosedName root version entries cleared) q = some data := by
  rw [fillOps,run_append,unpack_files,packed]
  rfl

def besideOps (platform : Platform) (enclosedName : Text → Option Text) (root : Path)
    (version : Text) (entries : List ZipEntry) (disk : Disk) : List FileOp :=
  launcherOps platform enclosedName root disk entries ++
    [.write (versionTmp root) (encode version)]

theorem beside_touches {disk : Disk} : ∀ op ∈ besideOps platform enclosedName root version entries disk,
      op.Touches fun q => q = stagedLauncher platform root ∨ q = versionTmp root := by
  intro op mem
  rcases List.mem_append.mp mem with launcher | tmp
  · unfold launcherOps at launcher
    split at launcher
    · cases launcher
    · split at launcher
      · rw [List.mem_singleton.mp launcher]
        exact Touches.weaken (write_touches _ _) fun q => Or.inl
      · cases launcher
  · rw [List.mem_singleton.mp tmp]
    exact Touches.weaken (write_touches _ _) fun q => Or.inr

theorem install_parts (disk : Disk) (cleared : Bool) :
    installPackage platform enclosedName root version disk entries cleared =
      fillOps platform enclosedName root version entries cleared ++ [.removeDirAll (finalDir root version)] ++
        [.renameDir (staging root version) (finalDir root version)] ++
        (besideOps platform enclosedName root version entries
          (run disk (unpackOps platform enclosedName root version entries cleared)) ++
          [.renameFile (versionTmp root) (versionFile root)]) := by
  unfold installPackage switchOps besideOps
  have place : unpackOps platform enclosedName root version entries cleared =
      fillOps platform enclosedName root version entries cleared ++
        [.removeDirAll (finalDir root version)] ++
        [.renameDir (staging root version) (finalDir root version)] := by
    unfold unpackOps fillOps
    simp
  rw [← place]
  simp

theorem prefix_within {α : Type} {a b p : List α} (stopped : p <+: a ++ b) :
    p <+: a ∨ ∃ t, t <+: b ∧ p = a ++ t := by
  rcases List.prefix_or_prefix_of_prefix stopped (List.prefix_append a b) with early | ⟨t,rfl⟩
  · exact Or.inl early
  · exact Or.inr ⟨t,(List.prefix_append_right_inj a).mp stopped,rfl⟩

theorem run_prefix_untouched {here : Path → Prop} {ops stopped : List FileOp}
    (each : ∀ op ∈ ops, op.Touches here) (early : stopped <+: ops) (disk : Disk) {q : Path}
    (apart : ¬here q) : run disk stopped q = disk q :=
  run_untouched (fun op mem => each op (early.subset mem)) disk apart

theorem beside_apart {d : Text} {rel : Path} (deep : rel ≠ []) :
    ¬(root ++ d :: rel = stagedLauncher platform root ∨ root ++ d :: rel = versionTmp root) := by
  rintro (same | same)
  · exact deeper deep same
  · exact deeper deep same

theorem versionFile_apart :
    ¬(versionFile root = stagedLauncher platform root ∨ versionFile root = versionTmp root) := by
  rintro (same | same)
  · have names := (List.cons.inj (List.append_cancel_left same)).1
    have last := congrArg List.getLast? names
    rw [List.getLast?_append] at last
    exact absurd (show some 'n' = some 'w' from last) (by decide)
  · have names := (List.cons.inj (List.append_cancel_left same)).1
    revert names
    decide

theorem version_named (parses : (parseVersion version).isSome) : version ≠ "version".toList := by
  rintro rfl
  revert parses
  decide

theorem staging_named : version ++ ".partial".toList ≠ "version".toList := by
  intro same
  have last := congrArg List.getLast? same
  rw [List.getLast?_append] at last
  exact absurd (show some 'l' = some 'n' from last) (by decide)

theorem file_apart (parses : (parseVersion version).isSome) :
    ¬staging root version <+: versionFile root ∧ ¬finalDir root version <+: versionFile root :=
  ⟨fun below => staging_named (below_child.mp below),
    fun below => version_named parses (below_child.mp below)⟩

theorem filling_point (inside : Inside platform enclosedName root version entries)
    (parses : (parseVersion version).isSome) {disk : Disk} {cleared : Bool} {stopped : List FileOp}
    (filling : stopped <+: fillOps platform enclosedName root version entries cleared) :
    Point platform enclosedName root lib version entries disk (run disk stopped) := by
  have same : ∀ q, ¬staging root version <+: q → run disk stopped q = disk q := fun q apart =>
    run_prefix_untouched (fill_touches inside) filling disk apart
  refine ⟨?_,fill_adds fun op mem => filling.subset mem,Or.inl ?_,
    Or.inl (same _ (file_apart parses).1)⟩
  · intro d rel _ notStaging _
    exact same _ fun below => notStaging (below_child.mp below).symm
  · intro rel _
    exact same _ fun below => longer version (below_child.mp below)

theorem emptied_point (parses : (parseVersion version).isSome) {before disk : Disk}
    (point : Point platform enclosedName root lib version entries before disk)
    (switched : disk (versionFile root) = before (versionFile root)) :
    Point platform enclosedName root lib version entries before
      ((FileOp.removeDirAll (finalDir root version)).apply disk) := by
  have same := removeDirAll_touches (finalDir root version) disk
  refine ⟨?_,?_,Or.inr (Or.inl ?_),Or.inl ?_⟩
  · intro d rel notTarget notStaging deep
    rw [same _ fun below => notTarget (below_child.mp below).symm]
    exact point.others d rel notTarget notStaging deep
  · rw [same _ (staging_beside _)]
    exact point.staged
  · intro rel _
    exact removeDirAll_below _ (below_child.mpr rfl)
  · rw [same _ (file_apart parses).2]
    exact switched

theorem moved (disk : Disk) (rel : Path) :
    (FileOp.renameDir (staging root version) (finalDir root version)).apply disk
      (root ++ version :: rel) = disk (staging root version ++ rel) := by
  have split_ : root ++ version :: rel = finalDir root version ++ rel :=
    (List.append_assoc root [version] rel).symm
  refine (if_pos (below_child.mpr rfl)).trans ?_
  rw [split_,List.drop_left]

theorem moved_unpacked {disk : Disk} (filled : ∀ rel data,
    content platform enclosedName root version entries (staging root version ++ rel) = some data →
      disk (staging root version ++ rel) = some data) : Unpacked platform enclosedName root version entries
      ((FileOp.renameDir (staging root version) (finalDir root version)).apply disk) :=
  fun rel _ data packed => (moved disk rel).trans (filled rel data packed)

theorem placed_point (parses : (parseVersion version).isSome) {before disk : Disk}
    (point : Point platform enclosedName root lib version entries before disk)
    (switched : disk (versionFile root) = before (versionFile root))
    (filled : ∀ rel data, content platform enclosedName root version entries
      (staging root version ++ rel) = some data → disk (staging root version ++ rel) = some data) :
    Point platform enclosedName root lib version entries before
      ((FileOp.renameDir (staging root version) (finalDir root version)).apply disk) := by
  have same := renameDir_touches (staging root version) (finalDir root version) disk
  have gone : ∀ rel, (FileOp.renameDir (staging root version) (finalDir root version)).apply disk
      (staging root version ++ rel) = none := by
    intro rel
    exact (if_neg (staging_beside rel)).trans (if_pos (List.prefix_append _ _))
  refine ⟨?_,?_,Or.inr (Or.inr ?_),Or.inl ?_⟩
  · intro d rel notTarget notStaging deep
    rw [same]
    · exact point.others d rel notTarget notStaging deep
    · rintro (below | below)
      · exact notStaging (below_child.mp below).symm
      · exact notTarget (below_child.mp below).symm
  · rw [gone]
    exact nofun
  · exact moved_unpacked filled
  · rw [same]
    · exact switched
    · exact not_or.mpr (file_apart parses)

theorem Point.beside {before disk disk' : Disk}
    (point : Point platform enclosedName root lib version entries before disk)
    (below : ∀ d rel, rel ≠ [] → disk' (root ++ d :: rel) = disk (root ++ d :: rel))
    (active : disk' (versionFile root) = disk (versionFile root) ∨
      (disk' (versionFile root) = some (encode version) ∧
        Unpacked platform enclosedName root version entries disk)) :
    Point platform enclosedName root lib version entries before disk' := by
  have unpacked : Unpacked platform enclosedName root version entries disk →
      Unpacked platform enclosedName root version entries disk' := by
    intro unpacked rel deep data packed
    rw [below version rel deep]
    exact unpacked rel deep data packed
  refine ⟨?_,?_,?_,?_⟩
  · intro d rel notTarget notStaging deep
    rw [below d rel deep]
    exact point.others d rel notTarget notStaging deep
  · rw [staging_append,below _ _ (List.cons_ne_nil _ _),← staging_append]
    exact point.staged
  · rcases point.target with kept | gone | placed
    · exact Or.inl fun rel deep => (below version rel deep).trans (kept rel deep)
    · exact Or.inr (Or.inl fun rel deep => (below version rel deep).trans (gone rel deep))
    · exact Or.inr (Or.inr (unpacked placed))
  · rcases active with same | ⟨switched,placed⟩
    · rw [same]
      exact point.active.imp id (And.imp id unpacked)
    · exact Or.inr ⟨switched,unpacked placed⟩

theorem switching_point {before disk unpacked : Disk} {stopped : List FileOp}
    (point : Point platform enclosedName root lib version entries before disk)
    (placed : Unpacked platform enclosedName root version entries disk)
    (early : stopped <+: besideOps platform enclosedName root version entries unpacked ++
      [.renameFile (versionTmp root) (versionFile root)]) :
    Point platform enclosedName root lib version entries before (run disk stopped) := by
  rcases List.prefix_concat_iff.mp early with rfl | beside
  · refine point.beside ?_ (Or.inr ⟨?_,placed⟩)
    · intro d rel deep
      rw [run_append]
      refine (renameFile_touches _ _ _ _ ?_).trans
        (run_untouched beside_touches disk (beside_apart deep))
      rintro (same | same)
      · exact deeper deep same
      · exact deeper deep same
    · have apart : versionFile root ≠ versionTmp root := fun same =>
        (@versionFile_apart platform root) (Or.inr same)
      rw [run_append,besideOps,run_append]
      simp [run,FileOp.apply,Function.update_of_ne apart]
  · refine point.beside ?_ (Or.inl ?_)
    · intro d rel deep
      exact run_prefix_untouched beside_touches beside disk (beside_apart deep)
    · exact run_prefix_untouched beside_touches beside disk versionFile_apart

theorem stopped_point (inside : Inside platform enclosedName root version entries)
    (parses : (parseVersion version).isSome) {disk : Disk} {cleared : Bool} {stopped : List FileOp}
    (early : stopped <+: installPackage platform enclosedName root version disk entries cleared) :
    Point platform enclosedName root lib version entries disk (run disk stopped) := by
  rw [install_parts] at early
  have atFilled : Point platform enclosedName root lib version entries disk
      (run disk (fillOps platform enclosedName root version entries cleared)) :=
    filling_point inside parses List.prefix_rfl
  have fileFilled : run disk (fillOps platform enclosedName root version entries cleared)
      (versionFile root) = disk (versionFile root) :=
    run_untouched (fill_touches inside) disk (file_apart parses).1
  have atEmptied : Point platform enclosedName root lib version entries disk
      (run disk (fillOps platform enclosedName root version entries cleared ++
        [.removeDirAll (finalDir root version)])) := by
    rw [run_append]
    exact emptied_point parses atFilled fileFilled
  have kept : ∀ q, ¬finalDir root version <+: q →
      run disk (fillOps platform enclosedName root version entries cleared ++
        [.removeDirAll (finalDir root version)]) q =
      run disk (fillOps platform enclosedName root version entries cleared) q := by
    intro q apart
    rw [run_append]
    exact removeDirAll_touches _ _ _ apart
  have filesEmptied : ∀ rel data, content platform enclosedName root version entries
      (staging root version ++ rel) = some data →
        run disk (fillOps platform enclosedName root version entries cleared ++
          [.removeDirAll (finalDir root version)]) (staging root version ++ rel) = some data :=
    fun rel data packed => (kept _ (staging_beside rel)).trans (fill_files disk packed)
  have fileEmptied := (kept _ (file_apart parses).2).trans fileFilled
  rcases prefix_within early with earlier | ⟨late,switching,rfl⟩
  · rcases List.prefix_concat_iff.mp earlier with rfl | earlier
    · rw [run_append]
      exact placed_point parses atEmptied fileEmptied filesEmptied
    · rcases List.prefix_concat_iff.mp earlier with rfl | filling
      · exact atEmptied
      · exact filling_point inside parses filling
  · rw [run_append,run_append _ (_ ++ _)]
    exact switching_point (placed_point parses atEmptied fileEmptied filesEmptied)
      (moved_unpacked filesEmptied) switching
theorem staging_ignored {complete : Text → Prop} {current : Text} {before disk : Disk}
    (layout : Layout root lib version complete current before)
    (point : Point platform enclosedName root lib version entries before disk)
    (holds : version.any isSuffixMark = false ∨
      content platform enclosedName root version entries (staging root version ++ [lib]) = none)
    (library : (disk (root ++ [version ++ ".partial".toList,lib])).isSome) :
    parseVersion (version ++ ".partial".toList) = none := by
  by_contra parses
  have marked : version.any isSuffixMark ≠ false := fun plain => parses (parse_staging_plain plain)
  have unpacked := holds.resolve_left marked
  rw [← staging_append] at library
  rcases point.staged library with there | packed
  · rw [staging_append] at there
    exact layout.unfinished (layout.scanned _ there (Option.isSome_iff_ne_none.mpr parses))
  · rw [unpacked] at packed
    cases packed

theorem whole_present {complete : Text → Prop} {current : Text} {before disk : Disk}
    (layout : Layout root lib version complete current before)
    (point : Point platform enclosedName root lib version entries before disk)
    (holds : version.any isSuffixMark = false ∨
      content platform enclosedName root version entries (staging root version ++ [lib]) = none)
    {d : Text} (library : (disk (root ++ [d,lib])).isSome) (parses : (parseVersion d).isSome) :
    Whole platform enclosedName root version entries complete before disk d := by
  have deep : [lib] ≠ [] := List.cons_ne_nil _ _
  by_cases new : d = version
  · subst new
    rcases point.target with kept | gone | unpacked
    · rw [kept [lib] deep] at library
      exact Or.inl ⟨layout.scanned _ library parses,kept⟩
    · rw [gone [lib] deep] at library
      cases library
    · exact Or.inr ⟨rfl,unpacked⟩
  · by_cases staged : d = version ++ ".partial".toList
    · subst staged
      rw [staging_ignored layout point holds library] at parses
      cases parses
    · have same := fun rel => point.others d rel new staged
      rw [same [lib] deep] at library
      exact Or.inl ⟨layout.scanned _ library parses,same⟩

theorem newer_differs {version current : Text} (newer : isNewer version current = true) :
    (parseVersion version).isSome ∧ (parseVersion current).isSome ∧
      parseVersion version ≠ parseVersion current := by
  unfold isNewer at newer
  split at newer
  case h_1 a b parsed parsed' =>
    refine ⟨by rw [parsed]; rfl,by rw [parsed']; rfl,?_⟩
    rw [parsed,parsed']
    intro same
    rw [Option.some.inj same] at newer
    exact List.lt_irrefl b (of_decide_eq_true newer)
  case h_2 => cases newer

theorem running_stays {complete : Text → Prop} {current : Text} {before disk : Disk}
    (layout : Layout root lib version complete current before)
    (point : Point platform enclosedName root lib version entries before disk)
    (newer : isNewer version current = true) :
    ∃ d, (disk (root ++ [d,lib])).isSome ∧ (parseVersion d).isSome := by
  obtain ⟨-,current_,differs⟩ := newer_differs newer
  obtain ⟨d,library,same⟩ := layout.running
  have parses : (parseVersion d).isSome := by rwa [same]
  have notTarget : d ≠ version := by
    rintro rfl
    exact differs same
  have notStaging : d ≠ version ++ ".partial".toList := by
    rintro rfl
    exact layout.unfinished (layout.scanned _ library parses)
  refine ⟨d,?_,parses⟩
  rwa [point.others d [lib] notTarget notStaging (List.cons_ne_nil _ _)]

theorem named_version {complete : Text → Prop} {current : Text} {before disk : Disk}
    (layout : Layout root lib version complete current before)
    (point : Point platform enclosedName root lib version entries before disk)
    (parses : (parseVersion version).isSome) (plain : '/' ∉ version) {text : Text}
    (named : (disk (versionFile root)).bind decode = some text) : (parseVersion (trim text)).isSome ∧
      Launcher.joinText platform root (trim text) = root ++ [trim text] := by
  have accepted : (parseVersion text).isSome ∧ '/' ∉ text := by
    rcases point.active with same | ⟨switched,-⟩
    · rw [same] at named
      exact layout.active text named
    · rw [switched,Option.bind_some,decode_encode] at named
      obtain rfl := Option.some.inj named
      exact ⟨parses,plain⟩
  have trimmed : (parseVersion (trim text)).isSome := by
    rw [parse_trim]
    exact accepted.1
  exact ⟨trimmed,joinText_version platform root trimmed fun mem => accepted.2 (mem_trim mem)⟩

theorem selects_version {complete : Text → Prop} {current : Text} {before disk : Disk}
    (layout : Layout root lib version complete current before)
    (point : Point platform enclosedName root lib version entries before disk)
    (newer : isNewer version current = true) (plain : '/' ∉ version) {listing : List Text}
    (lists : Lists root disk listing) :
    ∃ d, Launcher.selectLibrary platform disk root lib listing = .ok (root ++ [d,lib]) ∧
      (disk (root ++ [d,lib])).isSome ∧ (parseVersion d).isSome := by
  obtain ⟨parses,-,-⟩ := newer_differs newer
  unfold Launcher.selectLibrary
  cases named : ((disk (versionFile root)).bind decode).bind fun v =>
      let p := Launcher.joinText platform root (trim v) ++ [lib]
      if (disk p).isSome then some p else none with
  | some p =>
    obtain ⟨text,decoded,found⟩ := Option.bind_eq_some_iff.mp named
    obtain ⟨parsed,joined⟩ := named_version layout point parses plain decoded
    dsimp only at found
    split_ifs at found with library
    rw [joined,List.append_assoc] at library found
    exact ⟨trim text,congrArg Except.ok (Option.some.inj found).symm,library,parsed⟩
  | none =>
    obtain ⟨d,library,parsed⟩ := running_stays layout point newer
    obtain ⟨v,parsed⟩ := Option.isSome_iff_exists.mp parsed
    have member : (v,d) ∈ Launcher.installedVersions disk root lib listing :=
      Launcher.mem_installed.mpr ⟨lists d [lib] library,library,parsed⟩
    obtain ⟨w,chosen,newest⟩ := Launcher.newest_some (List.ne_nil_of_mem member)
    obtain ⟨-,library,parsed⟩ := Launcher.mem_installed.mp chosen
    refine ⟨w.2,?_,library,by rw [show parseVersion w.2 = some w.1 from parsed]; rfl⟩
    dsimp only
    rw [newest]

theorem safe_of_point {complete : Text → Prop} {current : Text} {before disk : Disk}
    (layout : Layout root lib version complete current before)
    (point : Point platform enclosedName root lib version entries before disk)
    (newer : isNewer version current = true) (plain : '/' ∉ version) (holds : version.any isSuffixMark = false ∨
      content platform enclosedName root version entries (staging root version ++ [lib]) = none) :
    Safe platform enclosedName root lib version entries complete before disk := by
  have ignored : ∀ v listing, (v,version ++ ".partial".toList) ∉
      Launcher.installedVersions disk root lib listing := by
    intro v listing member
    obtain ⟨-,library,parsed⟩ := Launcher.mem_installed.mp member
    exact absurd (parsed.symm.trans (staging_ignored layout point holds library)) nofun
  refine ⟨?_,?_,?_⟩
  · intro listing lists
    obtain ⟨d,selected,library,parsed⟩ := selects_version layout point newer plain lists
    exact ⟨d,selected,whole_present layout point holds library parsed⟩
  · intro listing _ member
    obtain ⟨v,member,named⟩ := List.mem_map.mp member
    exact ignored v.1 listing (named ▸ member)
  · intro listing _ activeDir deleted
    obtain ⟨v,member,-⟩ := Launcher.cleanup_installed deleted
    exact ignored v listing member

/-- The staging directory of a version with a suffix counts as that version as soon as the library
is unpacked. -/
theorem staging_counts {complete : Text → Prop} {before disk : Disk} {listing : List Text}
    (lists : Lists root disk listing) (parses : (parseVersion version).isSome)
    (marked : version.any isSuffixMark = true) (library : (disk (staging root version ++ [lib])).isSome) :
    ¬Safe platform enclosedName root lib version entries complete before disk := by
  intro safe
  obtain ⟨v,parsed⟩ := Option.isSome_iff_exists.mp parses
  rw [staging_append] at library
  have member : (v,version ++ ".partial".toList) ∈
      Launcher.installedVersions disk root lib listing :=
    Launcher.mem_installed.mpr
      ⟨lists _ [lib] library,library,(parse_staging_marked marked).trans parsed⟩
  exact safe.ignores listing lists (List.mem_map.mpr ⟨_,member,rfl⟩)

theorem fill_lists (inside : Inside platform enclosedName root version entries) {cleared : Bool}
    {disk : Disk} {listing : List Text} (lists : Lists root disk listing) :
    Lists root (run disk (fillOps platform enclosedName root version entries cleared))
      ((version ++ ".partial".toList) :: listing) := by
  intro d rel there
  by_cases staged : d = version ++ ".partial".toList
  · exact staged ▸ List.mem_cons_self
  · rw [run_untouched (fill_touches inside) disk
      fun below => staged (below_child.mp below).symm] at there
    exact List.mem_cons_of_mem _ (lists d rel there)

/-- An update may stop anywhere, exactly if the version has no suffix or the package has no
library to unpack. -/
theorem crash_safe_iff {complete : Text → Prop} {current : Text} {disk : Disk} {isDir : Bool}
    (accepted : accepts disk root version current isDir = true)
    (layout : Layout root lib version complete current disk)
    (inside : Inside platform enclosedName root version entries) : (∀ cleared stopped,
      stopped <+: installPackage platform enclosedName root version disk entries cleared →
        Safe platform enclosedName root lib version entries complete disk (run disk stopped)) ↔
    (version.any isSuffixMark = false ∨ ¬∃ entry ∈ entries, ∃ rel,
      unpackedName platform enclosedName version entry = some rel ∧
        destination platform root version rel = staging root version ++ [lib]) := by
  unfold accepts at accepted
  simp only [Bool.and_eq_true,Bool.not_eq_true'] at accepted
  obtain ⟨⟨⟨newer,parses⟩,separators⟩,-⟩ := accepted
  have plain : '/' ∉ version := fun mem =>
    absurd (List.any_eq_false.mp separators '/' mem) (by decide)
  constructor
  · intro safe
    by_contra unsafe_
    obtain ⟨marked,unpacked⟩ := not_or.mp unsafe_
    have packed := content_some.mpr (not_not.mp unpacked)
    obtain ⟨data,packed⟩ := Option.isSome_iff_exists.mp packed
    obtain ⟨listing,lists⟩ := layout.listed
    -- the update stops when all entries are unpacked
    have early : fillOps platform enclosedName root version entries true <+:
        installPackage platform enclosedName root version disk entries true := by
      rw [install_parts,List.append_assoc,List.append_assoc]
      exact List.prefix_append _ _
    refine staging_counts (fill_lists inside lists) parses (Bool.eq_true_of_not_eq_false marked) ?_
      (safe true _ early)
    rw [fill_files disk packed]
    rfl
  · intro holds cleared stopped early
    refine safe_of_point layout (stopped_point inside parses early) newer plain
      (holds.imp id fun unpacked => ?_)
    exact Option.not_isSome_iff_eq_none.mp fun packed => unpacked (content_some.mp packed)

end Points

namespace Sample

def lib : Text := "libbrowser_core.so".toList

/-- Version 0.1.0 is installed and active. -/
def disk : Disk := fun p =>
  if p = versionFile root then some (encode "0.1.0".toList)
  else if p = root ++ ["0.1.0".toList,lib] then some ByteArray.empty
  else none

def package (version : Text) : List ZipEntry := [⟨version ++ '/' :: lib,ByteArray.empty⟩]

theorem disk_files {d : Text} {rel : Path} (there : (disk (root ++ d :: rel)).isSome) :
    (d = "version".toList ∧ rel = []) ∨ (d = "0.1.0".toList ∧ rel = [lib]) := by
  unfold disk at there
  split_ifs at there with file library
  · exact Or.inl (List.cons.inj (List.append_cancel_left file))
  · exact Or.inr (List.cons.inj (List.append_cancel_left library))
  · cases there

theorem layout (version : Text) : Layout root lib version (· = "0.1.0".toList) "0.1.0".toList disk := by
  refine ⟨⟨["version".toList,"0.1.0".toList],?_⟩,?_,?_,⟨"0.1.0".toList,by decide,rfl⟩,?_⟩
  · intro d rel there
    rcases disk_files there with ⟨rfl,-⟩ | ⟨rfl,-⟩ <;> decide
  · intro d there _
    rcases disk_files there with ⟨-,wrong⟩ | ⟨rfl,-⟩
    · cases wrong
    · rfl
  · intro text named
    have active : disk (versionFile root) = some (encode "0.1.0".toList) := by decide
    rw [active,Option.bind_some,decode_encode] at named
    obtain rfl := Option.some.inj named
    decide
  · intro same
    have := congrArg List.length same
    rw [List.length_append] at this
    change version.length + 8 = 5 at this
    omega

theorem inside {version rel : Text} (unpacked : unpackedName platform enclosedName version
      ⟨version ++ '/' :: lib,ByteArray.empty⟩ = some rel)
    (stays : (climb platform rel).Stays platform (staging root version)) :
    Inside platform enclosedName root version (package version) := by
  intro entry mem rel' unpacked'
  rw [List.mem_singleton.mp mem,unpacked] at unpacked'
  exact Option.some.inj unpacked' ▸ stays

end Sample

theorem crash_safe_plain : accepts Sample.disk Sample.root "0.2.0".toList "0.1.0".toList false = true ∧
    ∀ cleared stopped, stopped <+: installPackage Sample.platform Sample.enclosedName Sample.root
        "0.2.0".toList Sample.disk (Sample.package "0.2.0".toList) cleared →
      Safe Sample.platform Sample.enclosedName Sample.root Sample.lib "0.2.0".toList
        (Sample.package "0.2.0".toList) (· = "0.1.0".toList) Sample.disk (run Sample.disk stopped) := by
  have stays : (climb Sample.platform Sample.lib).Stays Sample.platform
      (staging Sample.root "0.2.0".toList) := by
    change List.drop _ _ <+: _
    decide
  have accepted : accepts Sample.disk Sample.root "0.2.0".toList "0.1.0".toList false = true := by
    decide
  exact ⟨accepted,(crash_safe_iff accepted (Sample.layout _)
    (Sample.inside (by decide) stays)).mpr (Or.inl (by decide))⟩

/-- A pre-release that has not been unpacked completely counts as installed. -/
theorem beta_staging_counts :
    accepts Sample.disk Sample.root "0.2.0-beta.1".toList "0.1.0".toList false = true ∧
    ¬∀ cleared stopped, stopped <+: installPackage Sample.platform Sample.enclosedName Sample.root
        "0.2.0-beta.1".toList Sample.disk (Sample.package "0.2.0-beta.1".toList) cleared →
      Safe Sample.platform Sample.enclosedName Sample.root Sample.lib "0.2.0-beta.1".toList
        (Sample.package "0.2.0-beta.1".toList) (· = "0.1.0".toList) Sample.disk (run Sample.disk stopped) := by
  refine ⟨by decide,fun safe => ?_⟩
  have stays : (climb Sample.platform Sample.lib).Stays Sample.platform
      (staging Sample.root "0.2.0-beta.1".toList) := by
    change List.drop _ _ <+: _
    decide
  obtain ⟨listing,lists⟩ := (Sample.layout "0.2.0-beta.1".toList).listed
  have early : fillOps Sample.platform Sample.enclosedName Sample.root "0.2.0-beta.1".toList
      (Sample.package "0.2.0-beta.1".toList) true <+: installPackage Sample.platform
        Sample.enclosedName Sample.root "0.2.0-beta.1".toList Sample.disk
        (Sample.package "0.2.0-beta.1".toList) true := by
    rw [install_parts,List.append_assoc,List.append_assoc]
    exact List.prefix_append _ _
  exact staging_counts (fill_lists (Sample.inside (by decide) stays) lists) (by decide) (by decide)
    (by decide) (safe true _ early)

end Sharko.Browser.Update
