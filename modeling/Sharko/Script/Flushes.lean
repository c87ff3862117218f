import Sharko.Script.LocalStorage

/-! Flushes of two renderer processes that share a storage file. The file keeps the changes of
both unless both read it before either renames; then the flush that renames first is lost. -/

namespace Sharko.Script.LocalStorage
open Library

section Order

variable {α : Type} [DecidableEq α]

theorem before_snoc {a b c : α} {l : List α} (passed : b ∈ l) :
    (l ++ [c]).idxOf a < (l ++ [c]).idxOf b ↔ l.idxOf a < l.idxOf b := by
  rw [List.idxOf_append_of_mem passed]
  by_cases mem : a ∈ l
  · rw [List.idxOf_append_of_mem mem]
  · have here := List.idxOf_lt_length_iff.mpr passed
    rw [List.idxOf_append_of_notMem mem,List.idxOf_eq_length mem]
    omega

theorem before_total {a b : α} {l : List α} (first : a ∈ l) (distinct : a ≠ b) :
    l.idxOf b < l.idxOf a ↔ ¬l.idxOf a < l.idxOf b := by
  have apart : l.idxOf a ≠ l.idxOf b := fun same => distinct ((List.idxOf_inj first).mp same)
  omega

theorem before_now {a b : α} {l : List α} (new : b ∉ l) : (l ++ [b]).idxOf a < (l ++ [b]).idxOf b ↔ a ∈ l := by
  rw [List.idxOf_append_of_notMem new,List.idxOf_cons_self,add_zero]
  by_cases mem : a ∈ l
  · rw [List.idxOf_append_of_mem mem]
    exact iff_of_true (List.idxOf_lt_length_iff.mpr mem) mem
  · rw [List.idxOf_append_of_notMem mem]
    exact iff_of_false (by omega) mem

theorem before_of_filter {a b : α} {l : List α} (part : α → Bool) (first : part a = true)
    (second : part b = true) (before : (l.filter part).idxOf a < (l.filter part).idxOf b) :
    l.idxOf a < l.idxOf b := by
  induction l with
  | nil => simp at before
  | cons x rest ih =>
    by_cases inside : part x = true
    · rw [List.filter_cons_of_pos inside] at before
      by_cases here : x = a
      · subst here
        by_cases both : x = b
        · subst both
          exact absurd before (Nat.lt_irrefl _)
        · rw [List.idxOf_cons_self,List.idxOf_cons_ne _ both]
          exact Nat.succ_pos _
      · by_cases there : x = b
        · subst there
          rw [List.idxOf_cons_self] at before
          exact absurd before (Nat.not_lt_zero _)
        · rw [List.idxOf_cons_ne _ here,List.idxOf_cons_ne _ there] at before ⊢
          have := ih (by omega)
          omega
    · have other : ∀ c, part c = true → x ≠ c := by
        rintro c inside' rfl
        exact inside inside'
      rw [List.filter_cons_of_neg inside] at before
      rw [List.idxOf_cons_ne _ (other a first),List.idxOf_cons_ne _ (other b second)]
      have := ih before
      omega

end Order

section Interleaving

variable {Bytes : Type} (json : Json Bytes)

def course (pid : Nat) : List Step := [.read pid,.merge pid,.write pid true,.rename pid true]

structure Start where
  file : File
  before : Area
  journal : Nat → List Op

namespace Start

variable (start : Start) (steps : List Step)

def view (pid other : Nat) : Area :=
  if steps.idxOf (.rename other true) < steps.idxOf (.read pid) then
    replay (start.journal other) start.before
  else start.before

def out (pid other : Nat) : Area := replay (start.journal pid) (start.view steps pid other)

/-- How far the flush of a process has come. -/
inductive Progress (w : World Bytes) (pid other : Nat) : Prop where
  | unread (steps_ : steps.filter (fun step => step.pid = pid) = [])
      (stage : (w.proc pid).stage = .idle)
      (journal : (w.proc pid).storage.journal = start.journal pid)
  | read (steps_ : steps.filter (fun step => step.pid = pid) = (course pid).take 1)
      (stage : (w.proc pid).stage = .read (start.journal pid) (start.view steps pid other))
      (journal : (w.proc pid).storage.journal = [])
  | merged (steps_ : steps.filter (fun step => step.pid = pid) = (course pid).take 2)
      (stage : (w.proc pid).stage = .merged (start.out steps pid other))
      (journal : (w.proc pid).storage.journal = [])
  | written (bytes : Bytes) (steps_ : steps.filter (fun step => step.pid = pid) = (course pid).take 3)
      (stage : (w.proc pid).stage = .written (start.out steps pid other))
      (journal : (w.proc pid).storage.journal = [])
      (copy : w.disk (World.temporary start.file pid) = some bytes)
      (wrote : json.fromSlice bytes = some (start.out steps pid other))
  | renamed (steps_ : steps.filter (fun step => step.pid = pid) = course pid)
      (stage : (w.proc pid).stage = .idle) (journal : (w.proc pid).storage.journal = [])

structure Held (w : World Bytes) (pid other : Nat) : Prop where
  untouched : .rename pid true ∉ steps → .rename other true ∉ steps →
    Storage.readArea json w.disk start.file = start.before
  last : .rename pid true ∈ steps →
    (.rename other true ∈ steps → steps.idxOf (.rename other true) < steps.idxOf (.rename pid true)) →
    Storage.readArea json w.disk start.file = start.out steps pid other

structure Follows (w : World Bytes) (p q : Nat) : Prop where
  paths : (w.proc p).storage.path = some start.file ∧ (w.proc q).storage.path = some start.file
  first : start.Progress json steps w p q
  second : start.Progress json steps w q p
  heldFirst : start.Held json steps w p q
  heldSecond : start.Held json steps w q p

variable {start} {steps} {json} {w : World Bytes} {p q : Nat}

theorem Follows.symm (follows : start.Follows json steps w p q) : start.Follows json steps w q p :=
  ⟨follows.paths.symm,follows.second,follows.first,follows.heldSecond,follows.heldFirst⟩

theorem mem_of_course {pid n : Nat} (taken : steps.filter (fun step => step.pid = pid) = (course pid).take n)
    {step : Step} (of : step.pid = pid) : step ∈ steps ↔ step ∈ (course pid).take n := by
  rw [← taken,List.mem_filter]
  simp [of]

theorem read_of_course {pid n : Nat}
    (taken : steps.filter (fun step => step.pid = pid) = (course pid).take (n + 1)) : .read pid ∈ steps := by
  refine (mem_of_course taken rfl).mpr ?_
  simp [course]

theorem Progress.read_of_rename {pid other : Nat} (progress : start.Progress json steps w pid other)
    (renamed : .rename pid true ∈ steps) : .read pid ∈ steps := by
  cases progress with
  | unread taken => simpa using (mem_of_course (n := 0) taken rfl).mp renamed
  | read taken => simpa [course] using (mem_of_course taken rfl).mp renamed
  | merged taken => simpa [course] using (mem_of_course taken rfl).mp renamed
  | written _ taken => simpa [course] using (mem_of_course taken rfl).mp renamed
  | renamed taken => exact read_of_course (n := 3) taken

theorem view_snoc {pid other : Nat} {step : Step} (read : .read pid ∈ steps) :
    start.view (steps ++ [step]) pid other = start.view steps pid other := by
  unfold view
  simp only [before_snoc read]

theorem out_snoc {pid other : Nat} {step : Step} (read : .read pid ∈ steps) :
    start.out (steps ++ [step]) pid other = start.out steps pid other := by
  unfold out
  rw [view_snoc read]

variable {w' : World Bytes} {x : Step}

theorem steps_other (steps : List Step) {pid : Nat} (other : x.pid ≠ pid) :
    (steps ++ [x]).filter (fun step => step.pid = pid) = steps.filter fun step => step.pid = pid := by
  simp [other]

theorem steps_self {pid : Nat} (of : x.pid = pid) {taken : List Step}
    (before : steps.filter (fun step => step.pid = pid) = taken) :
    (steps ++ [x]).filter (fun step => step.pid = pid) = taken ++ [x] := by
  simp [of,before]

theorem Progress.kept {pid other : Nat} (progress : start.Progress json steps w pid other)
    (foreign : x.pid ≠ pid) (proc : w'.proc pid = w.proc pid)
    (copy : w'.disk (World.temporary start.file pid) = w.disk (World.temporary start.file pid)) :
    start.Progress json (steps ++ [x]) w' pid other := by
  have same := steps_other steps foreign
  cases progress with
  | unread taken stage journal => exact .unread (same.trans taken) (proc ▸ stage) (proc ▸ journal)
  | read taken stage journal =>
    refine .read (same.trans taken) ?_ (proc ▸ journal)
    rw [proc,view_snoc (read_of_course taken)]
    exact stage
  | merged taken stage journal =>
    refine .merged (same.trans taken) ?_ (proc ▸ journal)
    rw [proc,out_snoc (read_of_course taken)]
    exact stage
  | written bytes taken stage journal copied wrote =>
    refine .written bytes (same.trans taken) ?_ (proc ▸ journal) (copy.trans copied) ?_
    · rw [proc,out_snoc (read_of_course taken)]
      exact stage
    · rw [out_snoc (read_of_course taken)]
      exact wrote
  | renamed taken stage journal => exact .renamed (same.trans taken) (proc ▸ stage) (proc ▸ journal)

theorem Held.kept {pid other : Nat} (held : start.Held json steps w pid other)
    (read : .rename pid true ∈ steps → .read pid ∈ steps)
    (renames : ∀ u, x ≠ .rename u true) (disk : w'.disk start.file = w.disk start.file) :
    start.Held json (steps ++ [x]) w' pid other := by
  have area : Storage.readArea json w'.disk start.file = Storage.readArea json w.disk start.file := by
    unfold Storage.readArea
    rw [disk]
  have mem : ∀ u, .rename u true ∈ steps ++ [x] ↔ .rename u true ∈ steps := by
    intro u
    simp [(renames u).symm]
  refine ⟨?_,?_⟩
  · intro none_ none'
    rw [area]
    exact held.untouched ((mem pid).not.mp none_) ((mem other).not.mp none')
  · intro renamed order
    have before := (mem pid).mp renamed
    rw [area,out_snoc (read before)]
    refine held.last before ?_
    intro also
    exact (before_snoc before).mp (order ((mem other).mpr also))

theorem temporary_distinct {dir name : String} (two : p ≠ q) :
    World.temporary (.stored dir name) q ≠ World.temporary (.stored dir name) p := by
  intro same
  exact two (File.temporary.inj same).2.2.symm

theorem Follows.own_step (follows : start.Follows json steps w p q) (of : x.pid = p) (two : p ≠ q)
    (renames : ∀ u, x ≠ .rename u true) (proc : ∀ u ≠ p, w'.proc u = w.proc u)
    (path : (w'.proc p).storage.path = some start.file)
    (disk : ∀ file ≠ World.temporary start.file p, w'.disk file = w.disk file)
    (stored : ∃ dir name, start.file = .stored dir name)
    (progress : start.Progress json (steps ++ [x]) w' p q) : start.Follows json (steps ++ [x]) w' p q := by
  obtain ⟨dir,name,file⟩ := stored
  have shared : w'.disk start.file = w.disk start.file := by
    refine disk _ ?_
    rw [file]
    exact File.noConfusion
  have copy : w'.disk (World.temporary start.file q) = w.disk (World.temporary start.file q) := by
    refine disk _ ?_
    rw [file]
    exact temporary_distinct two
  refine ⟨⟨path,?_⟩,progress,?_,?_,?_⟩
  · rw [proc q two.symm]
    exact follows.paths.2
  · exact follows.second.kept (of ▸ two) (proc q two.symm) copy
  · exact follows.heldFirst.kept follows.first.read_of_rename renames shared
  · exact follows.heldSecond.kept follows.second.read_of_rename renames shared

theorem Follows.reads (follows : start.Follows json steps w p q)
    (unread : steps.filter (fun step => step.pid = p) = []) :
    Storage.readArea json w.disk start.file = start.view (steps ++ [.read p]) p q := by
  have absent : ∀ step : Step, step.pid = p → step ∉ steps := by
    intro step of mem
    simpa using (mem_of_course (n := 0) unread of).mp mem
  unfold view
  simp only [before_now (absent (.read p) rfl)]
  split
  case isTrue renamed =>
    rw [follows.heldSecond.last renamed fun mine => absurd mine (absent _ rfl)]
    have first : ¬steps.idxOf (.rename p true) < steps.idxOf (.read q) := by
      rw [List.idxOf_eq_length (absent (.rename p true) rfl)]
      exact not_lt.mpr List.idxOf_le_length
    rw [out,view,if_neg first]
  case isFalse unrenamed => exact follows.heldFirst.untouched (absent _ rfl) unrenamed

theorem step_of_idle {file : File} (stage : (w.proc x.pid).stage = .idle)
    (path : (w.proc x.pid).storage.path = some file) (taken : w.step json x = some w') :
    x = .read x.pid ∧ (w.proc x.pid).storage.journal ≠ [] ∧
      w' = w.setProc x.pid ⟨{ (w.proc x.pid).storage with journal := [],dirty := false },
        .read (w.proc x.pid).storage.journal (Storage.readArea json w.disk file)⟩ := by
  cases x with
  | read pid =>
    dsimp only [Step.pid] at stage path
    simp only [World.step,World.readFile,stage,path] at taken
    split at taken
    case isTrue => cases taken
    case isFalse pending => exact ⟨rfl,pending,(Option.some.inj taken).symm⟩
  | _ => simp_all [World.step,Step.pid,World.merge,World.writeCopy,World.renameCopy]

theorem step_of_read {journal : List Op} {onDisk : Area}
    (stage : (w.proc x.pid).stage = .read journal onDisk) (taken : w.step json x = some w') : x = .merge x.pid ∧
      w' = w.setProc x.pid ⟨(w.proc x.pid).storage,.merged (replay journal onDisk)⟩ := by
  cases x with
  | merge pid =>
    dsimp only [Step.pid] at stage
    simp only [World.step,World.merge,stage] at taken
    exact ⟨rfl,(Option.some.inj taken).symm⟩
  | _ => simp_all [World.step,Step.pid,World.readFile,World.writeCopy,World.renameCopy]

theorem step_of_merged {file : File} {onDisk : Area} {bytes : Bytes}
    (stage : (w.proc x.pid).stage = .merged onDisk)
    (path : (w.proc x.pid).storage.path = some file) (wrote : json.toVec onDisk = some bytes)
    (ok : x.ok = true) (taken : w.step json x = some w') : x = .write x.pid true ∧
      w' = (w.write (World.temporary file x.pid) (some bytes)).setProc x.pid
        ⟨(w.proc x.pid).storage,.written onDisk⟩ := by
  cases x with
  | write pid ok' =>
    dsimp only [Step.pid] at stage path
    cases (show ok' = true from ok)
    simp only [World.step,World.writeCopy,stage,path,wrote,if_pos] at taken
    exact ⟨rfl,(Option.some.inj taken).symm⟩
  | _ => simp_all [World.step,Step.pid,World.readFile,World.merge,World.renameCopy]

theorem step_of_written {file : File} {onDisk : Area} (stage : (w.proc x.pid).stage = .written onDisk)
    (path : (w.proc x.pid).storage.path = some file) (ok : x.ok = true) (taken : w.step json x = some w') :
    x = .rename x.pid true ∧ w' = ((w.write file (w.disk (World.temporary file x.pid))).write
        (World.temporary file x.pid) none).adopt x.pid onDisk := by
  cases x with
  | rename pid ok' =>
    dsimp only [Step.pid] at stage path
    cases (show ok' = true from ok)
    simp only [World.step,World.renameCopy,stage,path,if_pos] at taken
    exact ⟨rfl,(Option.some.inj taken).symm⟩
  | _ => simp_all [World.step,Step.pid,World.readFile,World.merge,World.writeCopy]

theorem setProc_other (v : World Bytes) (p' : Process) {u : Nat} (other : u ≠ p) :
    (v.setProc p p').proc u = v.proc u := by
  simp [World.setProc,other]

theorem Follows.renames (two : p ≠ q) (stored : ∃ dir name, start.file = .stored dir name)
    (follows : start.Follows json steps w p q) {bytes : Bytes}
    (course_ : steps.filter (fun step => step.pid = p) = (course p).take 3)
    (journal : (w.proc p).storage.journal = []) (copy : w.disk (World.temporary start.file p) = some bytes)
    (wrote : json.fromSlice bytes = some (start.out steps p q)) (onDisk : Area) :
    start.Follows json (steps ++ [.rename p true])
      (((w.write start.file (w.disk (World.temporary start.file p))).write
        (World.temporary start.file p) none).adopt p onDisk) p q := by
  obtain ⟨dir,name,file⟩ := stored
  have read : .read p ∈ steps := read_of_course course_
  have unrenamed : .rename p true ∉ steps := by
    intro mem
    simpa [course] using (mem_of_course course_ rfl).mp mem
  have apart : World.temporary start.file p ≠ start.file := by
    rw [file]
    exact File.noConfusion
  have copies : World.temporary start.file q ≠ World.temporary start.file p := by
    rw [file]
    exact temporary_distinct two
  have copies' : World.temporary start.file q ≠ start.file := by
    rw [file]
    exact File.noConfusion
  have area : Storage.readArea json (((w.write start.file (w.disk (World.temporary start.file p))).write
      (World.temporary start.file p) none).adopt p onDisk).disk start.file = start.out steps p q := by
    simp [Storage.readArea,World.adopt,World.setProc,World.write,apart.symm,copy,wrote]
  refine ⟨⟨?_,?_⟩,?_,?_,?_,?_⟩
  · simp only [World.adopt,World.setProc,Function.update_self]
    exact follows.paths.1
  · simp only [World.adopt,World.setProc,Function.update_of_ne two.symm]
    exact follows.paths.2
  · refine .renamed ((steps_self (x := .rename p true) rfl course_).trans rfl) ?_ ?_
    · simp [World.adopt,World.setProc]
    · simpa [World.adopt,World.setProc,World.write] using journal
  · refine follows.second.kept (x := .rename p true) two ?_ ?_
    · simp [World.adopt,World.setProc,World.write,two.symm]
    · simp [World.adopt,World.setProc,World.write,copies,copies']
  · refine ⟨fun mine => absurd (by simp) mine,fun _ _ => ?_⟩
    rw [area,out_snoc read]
  · refine ⟨fun _ mine => absurd (by simp) mine,?_⟩
    intro renamed order
    have before : .rename q true ∈ steps := by simpa [two.symm] using renamed
    have late := order (by simp)
    rw [before_snoc before,List.idxOf_eq_length unrenamed] at late
    exact absurd late (not_lt.mpr List.idxOf_le_length)

theorem Follows.step_self (laws : json.Laws) (two : p ≠ q)
    (stored : ∃ dir name, start.file = .stored dir name) (follows : start.Follows json steps w p q)
    (of : x.pid = p) (ok : x.ok = true) (taken : w.step json x = some w') :
    start.Follows json (steps ++ [x]) w' p q := by
  subst of
  have path := follows.paths.1
  cases follows.first with
  | unread course_ stage journal =>
    obtain ⟨kind,-,rfl⟩ := step_of_idle stage path taken
    refine follows.own_step rfl two ?_ (fun _ => setProc_other w _) ?_ (fun _ _ => rfl) stored ?_
    · rw [kind]
      exact fun _ => Step.noConfusion
    · simp only [World.setProc,Function.update_self]
      exact path
    · refine .read ((steps_self rfl course_).trans (by rw [kind]; rfl)) ?_ (by simp [World.setProc])
      have reads := follows.reads course_
      rw [← kind] at reads
      rw [← reads,← journal]
      simp [World.setProc]
  | read course_ stage journal =>
    obtain ⟨kind,rfl⟩ := step_of_read stage taken
    have read : .read x.pid ∈ steps := read_of_course course_
    refine follows.own_step rfl two ?_ (fun _ => setProc_other w _) ?_ (fun _ _ => rfl) stored ?_
    · rw [kind]
      exact fun _ => Step.noConfusion
    · simp only [World.setProc,Function.update_self]
      exact path
    · refine .merged ((steps_self rfl course_).trans (by rw [kind]; rfl)) ?_ ?_
      · rw [out_snoc read]
        simp [World.setProc,out]
      · simpa [World.setProc] using journal
  | merged course_ stage journal =>
    obtain ⟨bytes,wrote,reads⟩ := laws (start.out steps x.pid q)
    obtain ⟨kind,rfl⟩ := step_of_merged stage path wrote ok taken
    have read : .read x.pid ∈ steps := read_of_course course_
    refine follows.own_step rfl two ?_ (fun _ => setProc_other _ _) ?_ ?_ stored ?_
    · rw [kind]
      exact fun _ => Step.noConfusion
    · simp only [World.setProc,Function.update_self]
      exact path
    · intro file other
      simp [World.setProc,World.write,other]
    · refine .written bytes ((steps_self rfl course_).trans (by rw [kind]; rfl)) ?_ ?_ ?_ ?_
      · rw [out_snoc read]
        simp [World.setProc]
      · simpa [World.setProc] using journal
      · simp [World.setProc,World.write]
      · rw [out_snoc read]
        exact reads
  | written bytes course_ stage journal copy wrote =>
    obtain ⟨kind,rfl⟩ := step_of_written stage path ok taken
    have renamed := follows.renames two stored course_ journal copy wrote (start.out steps x.pid q)
    rw [← kind] at renamed
    exact renamed
  | renamed course_ stage journal =>
    obtain ⟨-,pending,-⟩ := step_of_idle stage path taken
    exact absurd journal pending

theorem Follows.run (laws : json.Laws) (two : p ≠ q)
    (stored : ∃ dir name, start.file = .stored dir name) {final : World Bytes}
    (follows : start.Follows json [] w p q)
    (theirs : ∀ step ∈ steps, (step.pid = p ∨ step.pid = q) ∧ step.ok = true)
    (ran : Runs.exec (World.step json) w steps = some final) : start.Follows json steps final p q := by
  induction steps using List.reverseRecOn generalizing final with
  | nil =>
    cases ran
    exact follows
  | append_singleton steps x ih =>
    obtain ⟨middle,before,last⟩ := Runs.exec_append_success _ ran
    obtain ⟨next,taken,ended⟩ := Runs.exec_cons_success _ last
    cases ended
    have here := ih (fun step mem => theirs step (List.mem_append_left _ mem)) before
    obtain ⟨whose,ok⟩ := theirs x (by simp)
    rcases whose with mine | others
    · exact here.step_self laws two stored mine ok taken
    · exact (here.symm.step_self laws two.symm stored others ok taken).symm

theorem finished_course {pid other : Nat} (progress : start.Progress json steps w pid other)
    (finished : (w.proc pid).stage = .idle ∧ (w.proc pid).storage.journal = []) :
    (steps.filter (fun step => step.pid = pid) = [] ∧ start.journal pid = []) ∨
      steps.filter (fun step => step.pid = pid) = course pid := by
  cases progress with
  | unread course_ _ journal => exact Or.inl ⟨course_,journal.symm.trans finished.2⟩
  | renamed course_ => exact Or.inr course_
  | read _ stage => exact absurd (finished.1.symm.trans stage) Stage.noConfusion
  | merged _ stage => exact absurd (finished.1.symm.trans stage) Stage.noConfusion
  | written _ _ stage => exact absurd (finished.1.symm.trans stage) Stage.noConfusion

theorem course_order {pid : Nat} (taken : steps.filter (fun step => step.pid = pid) = course pid) :
    steps.idxOf (.read pid) < steps.idxOf (.merge pid) ∧
      steps.idxOf (.merge pid) < steps.idxOf (.rename pid true) ∧ .rename pid true ∈ steps := by
  let mine : Step → Bool := fun step => step.pid = pid
  refine ⟨before_of_filter mine (decide_eq_true rfl) (decide_eq_true rfl) ?_,
    before_of_filter mine (decide_eq_true rfl) (decide_eq_true rfl) ?_,?_⟩
  · rw [taken]
    simp [course]
  · rw [taken]
    simp [course]
  · refine (mem_of_course (n := 4) taken rfl).mpr ?_
    simp [course]

end Start

def Theirs (p q : Nat) (steps : List Step) : Prop :=
  ∀ step ∈ steps, (step.pid = p ∨ step.pid = q) ∧ step.ok = true

def Before (a b : Step) (steps : List Step) : Prop := steps.idxOf a < steps.idxOf b

instance (a b : Step) (steps : List Step) : Decidable (Before a b steps) :=
  inferInstanceAs (Decidable (_ < _))

def Finished (w : World Bytes) (pid : Nat) : Prop :=
  (w.proc pid).stage = .idle ∧ (w.proc pid).storage.journal = []

def Shares (w : World Bytes) (file : File) (pid : Nat) : Prop :=
  (w.proc pid).stage = .idle ∧ (w.proc pid).storage.path = some file

def World.journal (w : World Bytes) (pid : Nat) : List Op := (w.proc pid).storage.journal

def World.area (w : World Bytes) (file : File) : Area := Storage.readArea json w.disk file

/-- The file contains the changes of both journals; the one merged last decides. -/
def KeepsBoth (w final : World Bytes) (file : File) (p q : Nat) (steps : List Step) : Prop :=
  (Before (.merge p) (.merge q) steps →
    Contains (w.journal p) (w.journal q) (w.area json file) (final.area json file)) ∧
  (¬Before (.merge p) (.merge q) steps →
    Contains (w.journal q) (w.journal p) (w.area json file) (final.area json file))

/-- One flush renames before the other reads; or else the changes of the one that renames first
are not missed. -/
def Apart (w : World Bytes) (file : File) (p q : Nat) (steps : List Step) : Prop :=
  Before (.rename p true) (.read q) steps ∨ Before (.rename q true) (.read p) steps ∨
    if Before (.rename p true) (.rename q true) steps then
      Unmissed (w.area json file) (w.journal p) (w.journal q) (Before (.merge q) (.merge p) steps)
    else Unmissed (w.area json file) (w.journal q) (w.journal p) (Before (.merge p) (.merge q) steps)

variable {json} {w final : World Bytes} {file : File} {p q : Nat} {steps : List Step}

theorem missed_iff (before : Area) (lost kept : List Op) {first last : Prop} (order : last ↔ ¬first) :
    ((first → Contains lost kept before (replay kept before)) ∧
      (¬first → Contains kept lost before (replay kept before))) ↔ Unmissed before lost kept last := by
  by_cases earlier : first
  · rw [show last = False from propext (iff_of_false (fun l => order.mp l earlier) not_false)]
    rw [← contains_lost_first]
    simp [earlier]
  · rw [show last = True from propext (iff_of_true (order.mpr earlier) trivial)]
    rw [← contains_lost_last]
    simp [earlier]

theorem not_before_absent {a b : Step} (absent : a ∉ steps) : ¬Before a b steps := by
  rw [Before,List.idxOf_eq_length absent]
  exact not_lt.mpr List.idxOf_le_length

theorem absent_of_none {pid : Nat} (none_ : steps.filter (fun step => step.pid = pid) = [])
    {step : Step} (of : step.pid = pid) : step ∉ steps := by
  intro mem
  simpa using (Start.mem_of_course (n := 0) none_ of).mp mem

namespace Start

variable {start : Start}

theorem view_alone {pid other : Nat} (unrenamed : ¬Before (.rename other true) (.read pid) steps) :
    start.view steps pid other = start.before := if_neg unrenamed

theorem view_after {pid other : Nat} (renamed : Before (.rename other true) (.read pid) steps) :
    start.view steps pid other = replay (start.journal other) start.before := if_pos renamed

theorem Follows.area_alone (follows : start.Follows json steps w p q)
    (absent : steps.filter (fun step => step.pid = p) = [])
    (course_ : steps.filter (fun step => step.pid = q) = course q) :
    Storage.readArea json w.disk start.file = replay (start.journal q) start.before := by
  have unrenamed : .rename p true ∉ steps := absent_of_none absent rfl
  rw [follows.heldSecond.last (course_order course_).2.2 fun mem => absurd mem unrenamed,out,
    view_alone (not_before_absent unrenamed)]

theorem Follows.area_last (follows : start.Follows json steps w p q)
    (course_ : steps.filter (fun step => step.pid = q) = course q)
    (order : Before (.rename p true) (.rename q true) steps) :
    Storage.readArea json w.disk start.file = start.out steps q p :=
  follows.heldSecond.last (course_order course_).2.2 fun _ => order

end Start

theorem merge_ne (two : p ≠ q) : Step.merge p ≠ Step.merge q := fun same => two (Step.merge.inj same)

theorem rename_ne (two : p ≠ q) : Step.rename p true ≠ Step.rename q true :=
  fun same => two (Step.rename.inj same).1

theorem mem_merge {pid : Nat} (taken : steps.filter (fun step => step.pid = pid) = course pid) :
    .merge pid ∈ steps := by
  refine (Start.mem_of_course (n := 4) taken rfl).mpr ?_
  simp [course]

theorem begun (file : File) (shared : Shares w file p ∧ Shares w file q) :
    Start.Follows json ⟨file,w.area json file,w.journal⟩ [] w p q :=
  ⟨⟨shared.1.2,shared.2.2⟩,.unread rfl shared.1.1 rfl,.unread rfl shared.2.1 rfl,
    ⟨fun _ _ => rfl,fun mem => absurd mem List.not_mem_nil⟩,
    ⟨fun _ _ => rfl,fun mem => absurd mem List.not_mem_nil⟩⟩

theorem both_flushed (two : p ≠ q) (follows : Start.Follows json ⟨file,w.area json file,w.journal⟩ steps final p q)
    (fullP : steps.filter (fun step => step.pid = p) = course p)
    (fullQ : steps.filter (fun step => step.pid = q) = course q)
    (first : Before (.rename p true) (.rename q true) steps) : ((Before (.merge p) (.merge q) steps →
        Contains (w.journal p) (w.journal q) (w.area json file) (final.area json file)) ∧
      (¬Before (.merge p) (.merge q) steps →
        Contains (w.journal q) (w.journal p) (w.area json file) (final.area json file))) ↔
    Before (.rename p true) (.read q) steps ∨
      Unmissed (w.area json file) (w.journal p) (w.journal q) (Before (.merge q) (.merge p) steps) := by
  have area : final.area json file = _ := follows.area_last fullQ first
  by_cases apart : Before (.rename p true) (.read q) steps
  · have mergedP := (Start.course_order fullP).2.1
    have mergedQ := (Start.course_order fullQ).1
    have order : Before (.merge p) (.merge q) steps := by
      unfold Before at apart ⊢
      omega
    have viewed : Start.out ⟨file,w.area json file,w.journal⟩ steps q p =
        replay (w.journal q) (replay (w.journal p) (w.area json file)) := by
      rw [Start.out,Start.view_after apart]
    refine iff_of_true ⟨fun _ => ?_,fun late => absurd order late⟩ (Or.inl apart)
    rw [area,viewed]
    exact contains_replayed _ _ _
  · have viewed : Start.out ⟨file,w.area json file,w.journal⟩ steps q p =
        replay (w.journal q) (w.area json file) := by
      rw [Start.out,Start.view_alone apart]
    have merges : Before (.merge q) (.merge p) steps ↔ ¬Before (.merge p) (.merge q) steps :=
      before_total (mem_merge fullP) (merge_ne two)
    rw [area,viewed,missed_iff _ _ _ merges]
    exact (or_iff_right apart).symm

/-- Every run of the flushes of two processes that share a file keeps the changes of both
exactly if one renames before the other reads, or what gets lost is not missed. -/
theorem keeps_both_iff (laws : json.Laws) (two : p ≠ q) (shared : Shares w file p ∧ Shares w file q)
    (theirs : Theirs p q steps) (ran : Runs.exec (World.step json) w steps = some final)
    (finished : Finished final p ∧ Finished final q) :
    KeepsBoth json w final file p q steps ↔ Apart json w file p q steps := by
  have stored : ∃ dir name, file = .stored dir name := by
    obtain ⟨name,is⟩ := path_stored shared.1.2
    exact ⟨_,name,is⟩
  have follows := (begun file shared).run laws two stored theirs ran
  rcases Start.finished_course follows.first finished.1 with ⟨noneP,emptyP⟩ | fullP
  · have journalP : w.journal p = [] := emptyP
    have unmerged : ¬Before (.merge p) (.merge q) steps :=
      not_before_absent (absent_of_none noneP rfl)
    rcases Start.finished_course follows.second finished.2 with ⟨noneQ,emptyQ⟩ | fullQ
    · have journalQ : w.journal q = [] := emptyQ
      have untouched : final.area json file = w.area json file :=
        follows.heldFirst.untouched (absent_of_none noneP rfl) (absent_of_none noneQ rfl)
      have unrenamed : ¬Before (.rename p true) (.rename q true) steps :=
        not_before_absent (absent_of_none noneP rfl)
      refine iff_of_true ⟨fun merged => absurd merged unmerged,fun _ => ?_⟩ (Or.inr (Or.inr ?_))
      · rw [untouched,journalP,journalQ]
        exact contains_replayed [] [] _
      · rw [if_neg unrenamed,journalQ]
        intro key value changed
        cases changed
    · have area : final.area json file = _ := follows.area_alone noneP fullQ
      have unread : .read p ∉ steps := absent_of_none noneP rfl
      refine iff_of_true ⟨fun merged => absurd merged unmerged,fun _ => ?_⟩ (Or.inr (Or.inl ?_))
      · rw [area,journalP]
        exact contains_replayed _ [] _
      · rw [Before,List.idxOf_eq_length unread]
        exact List.idxOf_lt_length_iff.mpr (Start.course_order fullQ).2.2
  · rcases Start.finished_course follows.second finished.2 with ⟨noneQ,emptyQ⟩ | fullQ
    · have journalQ : w.journal q = [] := emptyQ
      have area : final.area json file = _ := follows.symm.area_alone noneQ fullP
      have unread : .read q ∉ steps := absent_of_none noneQ rfl
      have unmerged : .merge q ∉ steps := absent_of_none noneQ rfl
      have merged : Before (.merge p) (.merge q) steps := by
        rw [Before,List.idxOf_eq_length unmerged]
        exact List.idxOf_lt_length_iff.mpr (mem_merge fullP)
      refine iff_of_true ⟨fun _ => ?_,fun late => absurd merged late⟩ (Or.inl ?_)
      · rw [area,journalQ]
        exact contains_replayed _ [] _
      · rw [Before,List.idxOf_eq_length unread]
        exact List.idxOf_lt_length_iff.mpr (Start.course_order fullP).2.2
    · have orderP := Start.course_order fullP
      have orderQ := Start.course_order fullQ
      by_cases first : Before (.rename p true) (.rename q true) steps
      · have late : ¬Before (.rename q true) (.read p) steps := by
          unfold Before at first ⊢
          omega
        rw [KeepsBoth,Apart,if_pos first,or_iff_right late]
        exact both_flushed two follows fullP fullQ first
      · have second : Before (.rename q true) (.rename p true) steps :=
          (before_total orderP.2.2 (rename_ne two)).mpr first
        have late : ¬Before (.rename p true) (.read q) steps := by
          unfold Before at second ⊢
          omega
        have merges : Before (.merge q) (.merge p) steps ↔ ¬Before (.merge p) (.merge q) steps :=
          before_total (mem_merge fullP) (merge_ne two)
        rw [KeepsBoth,Apart,if_neg first,or_iff_right late,
          ← both_flushed two.symm follows.symm fullQ fullP second,merges,not_not,and_comm]

end Interleaving

namespace Sample

def json : Json Area := ⟨some,some⟩

theorem laws : json.Laws := fun area => ⟨area,rfl,rfl⟩

def storage (op : Op) : Storage :=
  { profileDir := "profile",origin := some "o",localArea := none,journal := [op],dirty := true
    persist := true }

def file : File := .stored "profile" "o.json"

def world : World Area where
  disk := fun _ => none
  proc := fun pid => ⟨storage (.set (if pid = 1 then "a" else "b") "v"),.idle⟩

def oneByOne : List Step := course 1 ++ course 2

def together : List Step :=
  [.read 1,.read 2,.merge 1,.merge 2,.write 1 true,.write 2 true,.rename 1 true,.rename 2 true]

def final (steps : List Step) : World Area := (Runs.exec (World.step json) world steps).getD world

end Sample

/-- Both tabs read before either renames: the first key is gone. -/
theorem together_loses_key :
    Runs.exec (World.step Sample.json) Sample.world Sample.together = some (Sample.final Sample.together) ∧
      (Shares Sample.world Sample.file 1 ∧ Shares Sample.world Sample.file 2) ∧ Theirs 1 2 Sample.together ∧
      (Finished (Sample.final Sample.together) 1 ∧ Finished (Sample.final Sample.together) 2) ∧
      ¬KeepsBoth Sample.json Sample.world (Sample.final Sample.together) Sample.file 1 2 Sample.together := by
  refine ⟨rfl,⟨⟨rfl,by decide⟩,⟨rfl,by decide⟩⟩,by unfold Theirs; decide,⟨⟨rfl,rfl⟩,⟨rfl,rfl⟩⟩,?_⟩
  intro keeps
  have gone : ((Sample.final Sample.together).area Sample.json Sample.file).lookup "a" = none := by
    decide
  have there := keeps.1 (by decide) "a"
  rw [gone] at there
  revert there
  decide

/-- One after the other keeps both. -/
theorem keeps_both_one_by_one :
    KeepsBoth Sample.json Sample.world (Sample.final Sample.oneByOne) Sample.file 1 2 Sample.oneByOne ↔
      Apart Sample.json Sample.world Sample.file 1 2 Sample.oneByOne :=
  keeps_both_iff Sample.laws (by decide) ⟨⟨rfl,by decide⟩,⟨rfl,by decide⟩⟩
    (by unfold Theirs; decide) rfl ⟨⟨rfl,rfl⟩,⟨rfl,rfl⟩⟩

end Sharko.Script.LocalStorage
