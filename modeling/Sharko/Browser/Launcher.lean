import Mathlib.Data.List.Sort
import Sharko.Browser.Update

/-! The launcher: it finds the active version and loads its core library, and deletes the
versions that are neither active nor kept for a rollback. -/

namespace Sharko.Browser.Launcher
open Update

def parseVersion (s : Text) : Option (List Nat) := Update.parseVersion s

section

variable (platform : Platform) (disk : Disk) (root : Path) (lib : Text)

def installedVersions (entries : List Text) : List (List Nat × Text) :=
  (entries.filter fun d => (disk (root ++ [d,lib])).isSome).filterMap fun d =>
    (parseVersion d).map fun v => (v,d)

def later (best : Option (List Nat × Text)) (v : List Nat × Text) : Option (List Nat × Text) :=
  match best with
  | none => some v
  | some b => if v.1 < b.1 then some b else some v

def newest (versions : List (List Nat × Text)) : Option (List Nat × Text) :=
  versions.foldl later none

/-- `Path::join` of a relative or absolute path. -/
def joinText (p : Path) (t : Text) : Path :=
  (t.splitOn '/').foldl (join platform) (if t.head? = some '/' then [] else p)

def display (p : Path) : Text := p.flatMap fun c => '/' :: c

/-- The version named in the version file, else the newest installed version folder, else a
library next to the launcher (dev / portable). -/
def selectLibrary (entries : List Text) : Except Text Path :=
  let named := ((disk (versionFile root)).bind decode).bind fun v =>
    let p := joinText platform root (trim v) ++ [lib]
    if (disk p).isSome then some p else none
  match named with
  | some p => .ok p
  | none =>
    match newest (installedVersions disk root lib entries) with
    | some (_,dir) => .ok (root ++ [dir,lib])
    | none =>
      if (disk (root ++ [lib])).isSome then .ok (root ++ [lib])
      else .error ("No browser version found in ".toList ++ display root ++
        ".\nPlease reinstall.".toList)

def cleanupOldVersions (entries : List Text) (activeDir : Path) : List Text :=
  if activeDir = root then []
  else
    let others := (installedVersions disk root lib entries).filter fun v => root ++ [v.2] ≠ activeDir
    ((others.mergeSort fun a b => !(a.1 < b.1)).drop 1).map Prod.snd

end

section

variable {platform : Platform} {disk : Disk} {root : Path} {lib : Text} {entries : List Text}

theorem mem_installed {v : List Nat × Text} : v ∈ installedVersions disk root lib entries ↔
      v.2 ∈ entries ∧ (disk (root ++ [v.2,lib])).isSome ∧ parseVersion v.2 = some v.1 := by
  unfold installedVersions
  rw [List.mem_filterMap]
  constructor
  · rintro ⟨d,mem,found⟩
    obtain ⟨v',parsed,rfl⟩ := Option.map_eq_some_iff.mp found
    exact ⟨(List.mem_filter.mp mem).1,(List.mem_filter.mp mem).2,parsed⟩
  · rintro ⟨mem,library,parsed⟩
    exact ⟨v.2,List.mem_filter.mpr ⟨mem,library⟩,by rw [parsed]; rfl⟩

theorem later_choice (best : Option (List Nat × Text)) (v : List Nat × Text) :
    later best v = some v ∨ (later best v = best ∧ best.isSome) := by
  cases best with
  | none => exact Or.inl rfl
  | some b =>
    unfold later
    dsimp only
    split
    · exact Or.inr ⟨rfl,rfl⟩
    · exact Or.inl rfl

theorem foldl_later (versions : List (List Nat × Text)) (best : Option (List Nat × Text)) :
    versions.foldl later best = best ∨ ∃ v ∈ versions, versions.foldl later best = some v := by
  induction versions generalizing best with
  | nil => exact Or.inl rfl
  | cons w rest ih =>
    rw [List.foldl_cons]
    rcases ih (later best w) with same | ⟨v,mem,found⟩
    · rw [same]
      rcases later_choice best w with new | ⟨old,-⟩
      · exact Or.inr ⟨w,List.mem_cons_self,new⟩
      · exact Or.inl old
    · exact Or.inr ⟨v,List.mem_cons_of_mem w mem,found⟩

theorem newest_some {versions : List (List Nat × Text)} (some_ : versions ≠ []) :
    ∃ v ∈ versions, newest versions = some v := by
  cases versions with
  | nil => exact absurd rfl some_
  | cons w rest =>
    rcases foldl_later rest (some w) with same | ⟨v,mem,found⟩
    · exact ⟨w,List.mem_cons_self,same⟩
    · exact ⟨v,List.mem_cons_of_mem w mem,found⟩

theorem cleanup_installed {activeDir : Path} {d : Text}
    (deleted : d ∈ cleanupOldVersions disk root lib entries activeDir) :
    ∃ v, (v,d) ∈ installedVersions disk root lib entries ∧ root ++ [d] ≠ activeDir := by
  unfold cleanupOldVersions at deleted
  split at deleted
  · cases deleted
  · obtain ⟨v,mem,rfl⟩ := List.mem_map.mp deleted
    have sorted := List.mem_mergeSort.mp (List.mem_of_mem_drop mem)
    obtain ⟨inside,other⟩ := List.mem_filter.mp sorted
    exact ⟨v.1,inside,by simpa using other⟩

end

end Sharko.Browser.Launcher
