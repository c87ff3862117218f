import Mathlib
import Sharko.Script.Flushes

/-! What the calls of scripts leave in the storage file: a call that changes nothing in the view
of its process is not journalled, and a flush gives up its journal before it knows whether the
file system lets it write. -/

namespace Sharko.Script.LocalStorage
open Library

variable {Bytes : Type} {json : Json Bytes} {disk seen : File → Option Bytes} {s : Storage}

def changing (area : Area) : List Op → List Op
  | [] => []
  | op :: ops =>
    if replayOp area op = area then changing area ops else op :: changing (replayOp area op) ops

theorem changing_append (area : Area) (ops later : List Op) :
    changing area (ops ++ later) = changing area ops ++ changing (replay ops area) later := by
  induction ops generalizing area with
  | nil => rfl
  | cons op ops ih =>
    simp only [List.cons_append,changing]
    split_ifs with same
    · rw [ih,replay,replay,List.foldl_cons,same]
    · rw [ih,List.cons_append]
      rfl

theorem effect_append (ops later : List Op) (key : String) :
    effect (ops ++ later) key = (effect later key).or (effect ops key) := by
  simp [effect,List.getLast?_append]

theorem effect_none {ops : List Op} {key : String} :
    effect ops key = none ↔ ∀ op ∈ ops, op.effect key = none := by
  simp [effect]

theorem replay_changing (area : Area) (ops : List Op) : replay (changing area ops) area = replay ops area := by
  induction ops generalizing area with
  | nil => rfl
  | cons op ops ih =>
    rw [changing]
    split_ifs with same
    · rw [ih,replay,replay,List.foldl_cons,same]
    · exact ih (replayOp area op)

namespace Storage

def perform (json : Json Bytes) (disk : File → Option Bytes) (s : Storage) :
    Op → Storage × Except StorageError Unit
  | .set key value => s.set json disk key value
  | .remove key => s.remove json disk key
  | .clear => s.clear json disk

def performAll (json : Json Bytes) (disk : File → Option Bytes) (s : Storage) :
    List Op → Storage × List Op
  | [] => (s,[])
  | op :: ops =>
    let (s,result) := s.perform json disk op
    let (s,done) := s.performAll json disk ops
    (s,match result with | .ok () => op :: done | .error _ => done)

structure Journalled (json : Json Bytes) (disk : File → Option Bytes) (s s' : Storage) (view : Area)
    (new : List Op) : Prop where
  loaded : s'.loaded json disk = .ok view
  journal : s'.journal = s.journal ++ new
  path : s'.path = s.path

theorem Journalled.adopt {view : Area} (loaded : s.loaded json disk = .ok view) :
    Journalled json disk s { s with localArea := some view } view [] where
  loaded := by
    have allowed := loaded_allowed loaded
    simp [Storage.loaded,allowed]
  journal := (List.append_nil _).symm
  path := rfl

theorem Journalled.same {view : Area} (loaded : s.loaded json disk = .ok view) (op : Op)
    (same : replayOp view op = view) :
    Journalled json disk s { s with localArea := some view } (replayOp view op) (changing view [op]) := by
  simpa only [changing,same,if_true] using Journalled.adopt loaded

theorem Journalled.touch {view : Area} (loaded : s.loaded json disk = .ok view) (op : Op)
    (changes : replayOp view op ≠ view) :
    Journalled json disk s ({ s with localArea := some (replayOp view op) }.touch op)
      (replayOp view op) (changing view [op]) where
  loaded := by
    have allowed := loaded_allowed loaded
    simp [Storage.loaded,Storage.touch,allowed]
  journal := by
    rw [changing,if_neg changes]
    rfl
  path := rfl

theorem perform_journalled {view : Area} (loaded : s.loaded json disk = .ok view) (op : Op) :
    ((s.perform json disk op).2 = .ok () ∧
      Journalled json disk s (s.perform json disk op).1 (replayOp view op) (changing view [op])) ∨
    (s.perform json disk op).2 = .error .quota ∧ Journalled json disk s (s.perform json disk op).1 view [] := by
  cases op with
  | set key value =>
    rw [perform,Storage.set,loaded]
    dsimp only
    split_ifs with same fits
    · refine Or.inl ⟨rfl,Journalled.same loaded (.set key value) ?_⟩
      apply Finmap.ext_lookup
      intro other
      rw [replayOp,FiniteMap.lookup_insert_if]
      split_ifs with here
      · rw [here,same]
      · rfl
    · refine Or.inl ⟨rfl,Journalled.touch loaded (.set key value) ?_⟩
      intro unchanged
      exact same ((congrArg (Finmap.lookup key) unchanged).symm.trans (Finmap.lookup_insert view))
    · exact Or.inr ⟨rfl,Journalled.adopt loaded⟩
  | remove key =>
    rw [perform,Storage.remove,loaded]
    dsimp only
    split_ifs with present
    · refine Or.inl ⟨rfl,Journalled.touch loaded (.remove key) ?_⟩
      intro unchanged
      have gone := (congrArg (Finmap.lookup key) unchanged).symm.trans (Finmap.lookup_erase key view)
      rw [gone] at present
      cases present
    · exact Or.inl ⟨rfl,Journalled.same loaded (.remove key)
        (FiniteMap.erase_absent view key (Option.not_isSome_iff_eq_none.mp present))⟩
  | clear =>
    rw [perform,Storage.clear,loaded]
    dsimp only
    split_ifs with some_
    · refine Or.inl ⟨rfl,Journalled.touch loaded .clear ?_⟩
      exact fun unchanged => some_ unchanged.symm
    · exact Or.inl ⟨rfl,Journalled.same loaded .clear (not_not.mp some_).symm⟩

theorem performAll_journalled {view : Area} (loaded : s.loaded json disk = .ok view) (ops : List Op) :
    Journalled json disk s (s.performAll json disk ops).1
      (replay (s.performAll json disk ops).2 view) (changing view (s.performAll json disk ops).2) := by
  induction ops generalizing s view with
  | nil => exact ⟨loaded,(List.append_nil _).symm,rfl⟩
  | cons op ops ih =>
    obtain ⟨result,first⟩ | ⟨result,first⟩ := perform_journalled loaded op
    · have rest := ih first.loaded
      simp only [performAll,result]
      refine ⟨rest.loaded,?_,rest.path.trans first.path⟩
      rw [rest.journal,first.journal,List.append_assoc]
      exact congrArg (s.journal ++ ·) (changing_append view [op] _).symm
    · have rest := ih first.loaded
      simp only [performAll,result]
      refine ⟨rest.loaded,?_,rest.path.trans first.path⟩
      rw [rest.journal,first.journal,List.append_nil]

end Storage

theorem flush_file (laws : json.Laws) {file : File} (found : s.path = some file) (pid : Nat) :
    Storage.readArea json (s.flush json disk pid true true).1 file =
      replay s.journal (Storage.readArea json disk file) := by
  by_cases nothing : s.journal = []
  · rw [Storage.flush,if_pos nothing,nothing]
    rfl
  · obtain ⟨bytes,wrote,read⟩ := laws (replay s.journal (Storage.readArea json disk file))
    obtain ⟨name,stored⟩ := path_stored found
    have apart : file ≠ World.temporary file pid := by
      rw [stored]
      exact fun same => by cases same
    have kept : (s.flush json disk pid true true).1 file = some bytes := by
      simp only [Storage.flush,if_neg nothing,found,wrote,if_true]
      rw [Function.update_of_ne apart,Function.update_self,Function.update_self]
    rw [Storage.readArea,kept,Option.bind_some,read]
    rfl

def Changed (key : String) (view : Area) (done : List Op) : Prop :=
  ∃ op ∈ changing view done,op.effect key ≠ none

theorem replay_changed {key : String} {view : Area} {done : List Op} (changed : Changed key view done)
    (earlier : List Op) (area : Area) :
    (replay (earlier ++ changing view done) area).lookup key = (replay done view).lookup key := by
  obtain ⟨op,journalled,touches⟩ := changed
  have some_ : effect (changing view done) key ≠ none :=
    fun silent => touches (effect_none.mp silent op journalled)
  obtain ⟨value,left⟩ := Option.ne_none_iff_exists'.mp some_
  rw [← replay_changing view done,replay_lookup,replay_lookup,effect_append,left]
  rfl

/-- A key that calls touch is in the file as they leave it if one of them changes the view; if
all of them change nothing, it stays in the file as the earlier changes leave it. -/
theorem flush_leaves (laws : json.Laws) {file : File} {view : Area} (found : s.path = some file)
    (loaded : s.loaded json seen = .ok view) (ops : List Op) (pid : Nat) {key : String}
    {value : Option String} (touched : effect (s.performAll json seen ops).2 key = some value) :
    (Changed key view (s.performAll json seen ops).2 →
      (Storage.readArea json ((s.performAll json seen ops).1.flush json disk pid true true).1
        file).lookup key = value) ∧ (¬Changed key view (s.performAll json seen ops).2 →
      (Storage.readArea json ((s.performAll json seen ops).1.flush json disk pid true true).1
        file).lookup key = (replay s.journal (Storage.readArea json disk file)).lookup key) := by
  have after := Storage.performAll_journalled loaded ops
  rw [flush_file laws (after.path.trans found),after.journal]
  constructor
  · intro changed
    rw [replay_changed changed,replay_lookup,touched]
    rfl
  · intro unchanged
    have silent : effect (changing view (s.performAll json seen ops).2) key = none := by
      apply effect_none.mpr
      intro op journalled
      by_contra touches
      exact unchanged ⟨op,journalled,touches⟩
    rw [replay_lookup,effect_append,silent,Option.none_or,replay_lookup]

namespace Sample

def tab : Storage :=
  { storage .clear with localArea := some (Finmap.singleton "k" "v"),journal := [],dirty := false }

def changedElsewhere : File → Option Area := fun _ => some (Finmap.singleton "k" "w")

end Sample

/-- Setting what the tab sees already does not undo what another tab has set. -/
theorem set_again_lost :
    effect (Sample.tab.performAll Sample.json (fun _ => none) [.set "k" "v"]).2 "k" = some (some "v") ∧
    (Storage.readArea Sample.json ((Sample.tab.performAll Sample.json (fun _ => none)
      [.set "k" "v"]).1.flush Sample.json Sample.changedElsewhere 1 true true).1 Sample.file).lookup "k" =
      some "w" := by
  decide

theorem flush_leaves_removed : (Changed "k" (Finmap.singleton "k" "v")
        (Sample.tab.performAll Sample.json (fun _ => none) [.remove "k"]).2 →
      (Storage.readArea Sample.json ((Sample.tab.performAll Sample.json (fun _ => none)
        [.remove "k"]).1.flush Sample.json Sample.changedElsewhere 1 true true).1
          Sample.file).lookup "k" = none) ∧ (¬Changed "k" (Finmap.singleton "k" "v")
        (Sample.tab.performAll Sample.json (fun _ => none) [.remove "k"]).2 →
      (Storage.readArea Sample.json ((Sample.tab.performAll Sample.json (fun _ => none)
        [.remove "k"]).1.flush Sample.json Sample.changedElsewhere 1 true true).1 Sample.file).lookup "k" =
        (replay Sample.tab.journal
          (Storage.readArea Sample.json Sample.changedElsewhere Sample.file)).lookup "k") :=
  flush_leaves Sample.laws rfl rfl [.remove "k"] 1 (by decide)

theorem effect_some {ops : List Op} (some_ : ops ≠ []) : ∃ key value, effect ops key = some value := by
  obtain ⟨earlier,op,rfl⟩ := (List.eq_nil_or_concat ops).resolve_left some_
  cases op with
  | set key value => exact ⟨key,some value,by simp [effect,Op.effect]⟩
  | remove key => exact ⟨key,none,by simp [effect,Op.effect]⟩
  | clear => exact ⟨"",none,by simp [effect,Op.effect]⟩

theorem flush_journal (disk : File → Option Bytes) (pid : Nat) (written renamed : Bool) :
    (s.flush json disk pid written renamed).2.journal = [] := by
  by_cases nothing : s.journal = []
  · rw [Storage.flush,if_pos nothing]
    exact nothing
  · rw [Storage.flush,if_neg nothing]
    cases s.path <;> rfl

/-- Any later flush that the file system lets through, after any further calls and whatever the
file has become, writes the changes that no call since has replaced. -/
def Recorded (json : Json Bytes) (file : File) (pending : List Op) (s : Storage) : Prop :=
  ∀ (seen disk : File → Option Bytes) (ops : List Op) (pid : Nat) (key : String) (value : Option String),
    effect pending key = some value → effect (s.performAll json seen ops).2 key = none →
    (Storage.readArea json ((s.performAll json seen ops).1.flush json disk pid true true).1
      file).lookup key = value

/-- The changes are in the file that the flush has renamed into place, or they are still recorded. -/
def Retained (json : Json Bytes) (disk : File → Option Bytes) (s : Storage) (file : File) (pid : Nat)
    (written renamed : Bool) : Prop :=
  ((written && renamed) = true ∧ ∀ key value, effect s.journal key = some value →
    (Storage.readArea json (s.flush json disk pid written renamed).1 file).lookup key = value) ∨
  Recorded json file s.journal (s.flush json disk pid written renamed).2

theorem recorded_nothing (laws : json.Laws) {file : File} {pending : List Op} (nothing : s.journal = [])
    (recorded : Recorded json file pending s) : pending = [] := by
  by_contra some_
  obtain ⟨key,value,pends⟩ := effect_some some_
  obtain ⟨area,other⟩ : ∃ area : Area,area.lookup key ≠ value := by
    cases value with
    | none => exact ⟨Finmap.singleton key "",by simp⟩
    | some value => exact ⟨∅,by simp⟩
  obtain ⟨bytes,-,read⟩ := laws area
  have kept := recorded (fun _ => none) (fun _ => some bytes) [] 0 key value pends rfl
  rw [Storage.performAll,Storage.flush,if_pos nothing,Storage.readArea,Option.bind_some,read] at kept
  exact other kept

/-- A flush that the file system refuses gives up all it had to write. -/
theorem flush_retains_iff (laws : json.Laws) {file : File} (found : s.path = some file) (pid : Nat)
    (written renamed : Bool) : Retained json disk s file pid written renamed ↔
      s.journal = [] ∨ (written && renamed) = true := by
  constructor
  · intro retained
    apply retained.symm.imp
    · exact recorded_nothing laws (flush_journal disk pid written renamed)
    · exact And.left
  · intro fine
    obtain nothing | wrote := fine
    · apply Or.inr
      intro seen disk ops pid key value pends
      rw [nothing] at pends
      cases pends
    · refine Or.inl ⟨wrote,fun key value pends => ?_⟩
      obtain ⟨rfl,rfl⟩ := Bool.and_eq_true_iff.mp wrote
      rw [flush_file laws found,replay_lookup,pends]
      rfl

/-- The temporary file cannot be written once: the entry never gets into the file. -/
theorem refused_write_forgets :
    ¬Retained Sample.json (fun _ => none) (Sample.storage (.set "k" "v")) Sample.file 1 false true := by
  intro retained
  obtain ⟨wrote,-⟩ | recorded := retained
  · cases wrote
  · have kept := recorded (fun _ => none) (fun _ => none) [] 1 "k" (some "v") (by decide) (by decide)
    revert kept
    decide

theorem flush_retains_refused :
    Retained Sample.json (fun _ => none) (Sample.storage (.set "k" "v")) Sample.file 1 true false ↔
      (Sample.storage (.set "k" "v")).journal = [] ∨ (true && false) = true :=
  flush_retains_iff Sample.laws rfl 1 true false

end Sharko.Script.LocalStorage
