import Sharko.Library.Runs
import Mathlib.Logic.Function.Basic
import Mathlib.Data.List.Count

/-! The fetches of one client of the network service (`Client` and `handle_message` in
`crates/netstack/src/service.rs`). The reader thread processes `Fetch`, `Abort` and the
disconnect; every task ends in two steps, taking its entry out of the table under the
lock and sending its response without it. When the runtime drops an aborted task is up
to the action. -/

namespace Sharko.Netstack.Service
open Library

inductive Stage where
  | running
  | wanted
  | answered
  | dropped
deriving DecidableEq

structure Task where
  id : Nat
  stage : Stage
  aborted : Bool
  /-- An `Abort` or a newer `Fetch` of its id, or the disconnect, was processed. -/
  withdrawn : Bool
deriving DecidableEq

structure Response where
  id : Nat
  generation : Nat
  late : Bool
deriving DecidableEq

structure Client where
  inflight : Nat → Option Nat
  generation : Nat
  tasks : Nat → Option Task
  out : List Response
  connected : Bool

inductive Action where
  | fetch (id : Nat)
  | abort (id : Nat)
  | disconnect
  | finish (generation : Nat)
  | send (generation : Nat)
  | drop (generation : Nat)

namespace Client

def new : Client := ⟨fun _ => none,0,fun _ => none,[],true⟩

def withdraw (s : Client) (unwanted : Nat → Bool) : Nat → Option Task := fun g =>
  (s.tasks g).map fun task => {task with
    aborted := task.aborted || (unwanted task.id && s.inflight task.id == some g)
    withdrawn := task.withdrawn || unwanted task.id}

def advance (s : Client) (g : Nat) (task : Task) (stage : Stage) : Nat → Option Task :=
  Function.update s.tasks g (some {task with stage := stage})

def step (s : Client) : Action → Option Client
  | .fetch id =>
    if !s.connected then none
    else some {s with
      generation := s.generation + 1
      tasks := Function.update (s.withdraw (· == id)) s.generation (some ⟨id,.running,false,false⟩)
      inflight := Function.update s.inflight id (some s.generation)}
  | .abort id =>
    if !s.connected then none
    else some {s with
      tasks := s.withdraw (· == id)
      inflight := Function.update s.inflight id none}
  | .disconnect =>
    if !s.connected then none
    else some {s with
      tasks := s.withdraw fun _ => true
      inflight := fun _ => none
      connected := false}
  | .finish g =>
    match s.tasks g with
    | some task =>
      if task.stage ≠ .running then none
      else if s.inflight task.id = some g then
        some {s with
          tasks := s.advance g task .wanted
          inflight := Function.update s.inflight task.id none}
      else some {s with tasks := s.advance g task .dropped}
    | none => none
  | .send g =>
    match s.tasks g with
    | some task =>
      if task.stage ≠ .wanted then none
      else some {s with
        tasks := s.advance g task .answered
        out := s.out ++ [⟨task.id,g,task.withdrawn⟩]}
    | none => none
  | .drop g =>
    match s.tasks g with
    | some task =>
      if task.stage ≠ .running || !task.aborted then none
      else some {s with tasks := s.advance g task .dropped}
    | none => none

variable {s s' : Client}

def responses (s : Client) (g : Nat) : Nat := (s.out.map Response.generation).count g

/-- A fetch that is not withdrawn keeps its entry while it runs and is answered once; a
withdrawn one is not answered after that. -/
structure Accounted (s : Client) : Prop where
  answers : ∀ r ∈ s.out, ∃ task, s.tasks r.generation = some task ∧ task.id = r.id
  once : ∀ g, s.responses g ≤ 1
  answered : ∀ g task, s.tasks g = some task → task.withdrawn = false →
    task.stage ≠ .running → task.stage ≠ .wanted → s.responses g = 1
  silent : ∀ r ∈ s.out, r.late = false
  registered : ∀ g task, s.tasks g = some task → task.stage = .running → task.withdrawn = false →
    s.inflight task.id = some g

/-- A task that took its entry out of the table sends its response before its fetch is
withdrawn. -/
def Prompt (s : Client) : Action → Prop
  | .send g => ∀ task, s.tasks g = some task → task.stage = .wanted → task.withdrawn = false
  | _ => True

structure Coherent (s : Client) : Prop where
  fresh : ∀ g, s.generation ≤ g → s.tasks g = none
  responses : ∀ g, s.responses g = if (s.tasks g).any (·.stage == .answered) then 1 else 0
  answers : ∀ r ∈ s.out, ∃ task, s.tasks r.generation = some task ∧ task.id = r.id
  registered : ∀ g task, s.tasks g = some task → task.stage = .running → task.withdrawn = false →
    s.inflight task.id = some g
  entry : ∀ id g, s.inflight id = some g → ∃ task, s.tasks g = some task ∧ task.id = id ∧
    task.stage = .running ∧ task.withdrawn = false
  dropped : ∀ g task, s.tasks g = some task → task.stage = .dropped ∨ task.aborted = true →
    task.withdrawn = true

theorem Coherent.accounted (ok : Coherent s) (silent : ∀ r ∈ s.out, r.late = false) : Accounted s := by
  refine ⟨ok.answers,?_,?_,silent,ok.registered⟩
  · intro g
    rw [ok.responses g]
    split_ifs <;> omega
  · intro g task found kept unfinished unwanted
    rw [ok.responses g,found]
    cases stage : task.stage with
    | running => exact absurd stage unfinished
    | wanted => exact absurd stage unwanted
    | answered => simp [stage]
    | dropped =>
      rw [ok.dropped g task found (.inl stage)] at kept
      cases kept

theorem withdraw_some {unwanted : Nat → Bool} {g : Nat} {task : Task} :
    s.withdraw unwanted g = some task ↔ ∃ before, s.tasks g = some before ∧ task = {before with
      aborted := before.aborted || (unwanted before.id && s.inflight before.id == some g)
      withdrawn := before.withdrawn || unwanted before.id} := by
  rw [withdraw,Option.map_eq_some_iff]
  constructor
  · rintro ⟨before,found,rfl⟩
    exact ⟨before,found,rfl⟩
  · rintro ⟨before,found,rfl⟩
    exact ⟨before,found,rfl⟩

theorem Coherent.withdraw (ok : Coherent s) {unwanted : Nat → Bool} {inflight : Nat → Option Nat}
    (gone : ∀ id, unwanted id = true → inflight id = none)
    (kept : ∀ id, unwanted id = false → inflight id = s.inflight id) (connected : Bool) :
    Coherent {s with tasks := s.withdraw unwanted, inflight := inflight, connected := connected} := by
  refine ⟨?_,?_,?_,?_,?_,?_⟩
  · intro g beyond
    simp only [Client.withdraw,ok.fresh g beyond,Option.map_none]
  · intro g
    show s.responses g = if (s.withdraw unwanted g).any (·.stage == .answered) then 1 else 0
    rw [ok.responses g,Client.withdraw,Option.any_map]
  · intro r member
    obtain ⟨task,found,same⟩ := ok.answers r member
    exact ⟨_,withdraw_some.mpr ⟨task,found,rfl⟩,same⟩
  · intro g task found running wanted
    obtain ⟨before,found',rfl⟩ := withdraw_some.mp found
    simp only [Bool.or_eq_false_iff] at wanted
    show inflight before.id = some g
    rw [kept _ wanted.2]
    exact ok.registered g before found' running wanted.1
  · intro id g found
    cases unwanted' : unwanted id with
    | true =>
      simp only [gone id unwanted'] at found
      cases found
    | false =>
      simp only [kept id unwanted'] at found
      obtain ⟨task,found',rfl,running,wanted⟩ := ok.entry id g found
      exact ⟨_,withdraw_some.mpr ⟨task,found',rfl⟩,rfl,running,by simp [wanted,unwanted']⟩
  · intro g task found isOver'
    obtain ⟨before,found',rfl⟩ := withdraw_some.mp found
    simp only [Bool.or_eq_true,Bool.and_eq_true] at isOver' ⊢
    rcases isOver' with dropped | aborted | ⟨unwanted',_⟩
    · exact .inl (ok.dropped g before found' (.inl dropped))
    · exact .inl (ok.dropped g before found' (.inr aborted))
    · exact .inr unwanted'

theorem Coherent.accept (ok : Coherent s) {id : Nat} (free : s.inflight id = none) : Coherent {s with
      generation := s.generation + 1
      tasks := Function.update s.tasks s.generation (some ⟨id,.running,false,false⟩)
      inflight := Function.update s.inflight id (some s.generation)} := by
  have unborn := ok.fresh s.generation (Nat.le_refl _)
  have old : ∀ g task, s.tasks g = some task → g ≠ s.generation := by
    rintro g task found rfl
    rw [unborn] at found
    cases found
  refine ⟨?_,?_,?_,?_,?_,?_⟩
  · intro g beyond
    have different : g ≠ s.generation := by
      rintro rfl
      exact Nat.not_succ_le_self _ beyond
    simp only [Function.update_of_ne different]
    exact ok.fresh g (Nat.le_of_succ_le beyond)
  · intro g
    show s.responses g = if (Function.update s.tasks s.generation _ g).any (·.stage == .answered) then 1 else 0
    rw [ok.responses g]
    by_cases same : g = s.generation
    · subst same
      simp [unborn]
    · rw [Function.update_of_ne same]
  · intro r member
    obtain ⟨task,found,same⟩ := ok.answers r member
    exact ⟨task,by simpa [Function.update_of_ne (old _ _ found)] using found,same⟩
  · intro g task found running wanted
    by_cases same : g = s.generation
    · subst same
      simp only [Function.update_self,Option.some.injEq] at found
      subst found
      simp
    · simp only [Function.update_of_ne same] at found
      have entry := ok.registered g task found running wanted
      have different : task.id ≠ id := by
        rintro rfl
        rw [free] at entry
        cases entry
      simpa [different] using entry
  · intro other g found
    by_cases same : other = id
    · subst same
      simp only [Function.update_self,Option.some.injEq] at found
      subst found
      exact ⟨_,Function.update_self _ _ _,rfl,rfl,rfl⟩
    · simp only [Function.update_of_ne same] at found
      obtain ⟨task,found',rest⟩ := ok.entry other g found
      exact ⟨task,by simpa [Function.update_of_ne (old _ _ found')] using found',rest⟩
  · intro g task found isOver'
    by_cases same : g = s.generation
    · subst same
      simp only [Function.update_self,Option.some.injEq] at found
      subst found
      simp at isOver'
    · simp only [Function.update_of_ne same] at found
      exact ok.dropped g task found isOver'

theorem Coherent.advance (ok : Coherent s) {g : Nat} {task : Task} (found : s.tasks g = some task)
    {stage : Stage} {inflight : Nat → Option Nat} {more : List Response}
    (isOver' : stage ≠ .running) (unanswered : task.stage ≠ .answered) (gone : ∀ id, inflight id ≠ some g)
    (others : ∀ id h, h ≠ g → (inflight id = some h ↔ s.inflight id = some h))
    (dropped : stage = .dropped → task.withdrawn = true) (own : ∀ r ∈ more, r.generation = g ∧ r.id = task.id)
    (answers : more.length = if stage = .answered then 1 else 0) :
    Coherent {s with tasks := s.advance g task stage, inflight := inflight, out := s.out ++ more} := by
  have lookup : ∀ h, h ≠ g → s.advance g task stage h = s.tasks h := fun h different =>
    Function.update_of_ne different _ _
  have self : s.advance g task stage g = some {task with stage := stage} := Function.update_self _ _ _
  refine ⟨?_,?_,?_,?_,?_,?_⟩
  · intro h beyond
    have different : h ≠ g := by
      rintro rfl
      rw [ok.fresh h beyond] at found
      cases found
    simp only [lookup h different]
    exact ok.fresh h beyond
  · intro h
    have before := ok.responses h
    show ((s.out ++ more).map Response.generation).count h =
      if (s.advance g task stage h).any (·.stage == .answered) then 1 else 0
    rw [List.map_append,List.count_append]
    by_cases same : h = g
    · subst same
      have all : (more.map Response.generation).count h = more.length := by
        rw [← List.length_map Response.generation,List.count_eq_length]
        intro r member
        obtain ⟨r',member',rfl⟩ := List.mem_map.mp member
        exact (own r' member').1.symm
      rw [found] at before
      simp only [Option.any_some,beq_iff_eq,unanswered,if_false] at before
      show s.responses h + _ = _
      rw [before,all,answers,self]
      simp
    · have none' : (more.map Response.generation).count h = 0 := by
        rw [List.count_eq_zero]
        intro member
        obtain ⟨r,member',equal⟩ := List.mem_map.mp member
        exact same (equal.symm.trans (own r member').1)
      rw [none',lookup h same]
      exact before
  · intro r member
    rcases List.mem_append.mp member with old | new
    · obtain ⟨task',found',same⟩ := ok.answers r old
      by_cases equal : r.generation = g
      · rw [equal,found] at found'
        cases found'
        refine ⟨{task with stage := stage},?_,same⟩
        rw [equal]
        exact self
      · exact ⟨task',(lookup _ equal).trans found',same⟩
    · obtain ⟨equal,id⟩ := own r new
      refine ⟨{task with stage := stage},?_,id.symm⟩
      rw [equal]
      exact self
  · intro h task' found' running wanted
    by_cases same : h = g
    · subst same
      simp only [self,Option.some.injEq] at found'
      subst found'
      exact absurd running isOver'
    · simp only [lookup h same] at found'
      exact (others _ h same).mpr (ok.registered h task' found' running wanted)
  · intro id h found'
    have different : h ≠ g := by
      rintro rfl
      exact gone id found'
    obtain ⟨task',found₂,rest⟩ := ok.entry id h ((others id h different).mp found')
    exact ⟨task',(lookup h different).trans found₂,rest⟩
  · intro h task' found' ended
    by_cases same : h = g
    · subst same
      simp only [self,Option.some.injEq] at found'
      subst found'
      rcases ended with now | aborted
      · exact dropped now
      · exact ok.dropped h task found (.inr aborted)
    · simp only [lookup h same] at found'
      exact ok.dropped h task' found' ended

theorem Coherent.unlisted (ok : Coherent s) {g : Nat} {task : Task} (found : s.tasks g = some task)
    (absent : task.stage ≠ .running ∨ s.inflight task.id ≠ some g) (id : Nat) : s.inflight id ≠ some g := by
  intro listed
  obtain ⟨task',found',same,running,_⟩ := ok.entry id g listed
  rw [found] at found'
  cases found'
  rcases absent with ended | elsewhere
  · exact ended running
  · exact elsewhere (same ▸ listed)

theorem Coherent.send (ok : Coherent s) {g : Nat} {task : Task} (found : s.tasks g = some task)
    (wanted : task.stage = .wanted) : Coherent {s with
      tasks := s.advance g task .answered
      out := s.out ++ [⟨task.id,g,task.withdrawn⟩]} := by
  refine ok.advance found (by simp) (by simp [wanted]) (ok.unlisted found (.inl (by simp [wanted])))
    (fun _ _ _ => Iff.rfl) (by simp) ?_ rfl
  intro r member
  rw [List.mem_singleton.mp member]
  exact ⟨rfl,rfl⟩

theorem Coherent.leave (ok : Coherent s) {g : Nat} {task : Task} (found : s.tasks g = some task)
    (running : task.stage = .running) {stage : Stage} {inflight : Nat → Option Nat}
    (after : stage = .wanted ∨ (stage = .dropped ∧ task.withdrawn = true)) (gone : ∀ id, inflight id ≠ some g)
    (others : ∀ id h, h ≠ g → (inflight id = some h ↔ s.inflight id = some h)) :
    Coherent {s with tasks := s.advance g task stage, inflight := inflight} := by
  have left : stage ≠ .running ∧ stage ≠ .answered ∧ (stage = .dropped → task.withdrawn = true) := by
    rcases after with rfl | ⟨rfl,withdrawn⟩
    · simp
    · simp [withdrawn]
  have kept : Coherent {s with tasks := s.advance g task stage, inflight := inflight, out := s.out ++ []} :=
    ok.advance found left.1 (by simp [running]) gone others left.2.2 (by simp) (by simp [left.2.1])
  simpa only [List.append_nil] using kept

theorem step_coherent (ok : Coherent s) {a : Action} (taken : s.step a = some s') : Coherent s' := by
  cases a with
  | fetch id =>
    simp only [step] at taken
    split_ifs at taken
    cases taken
    have cleared : Coherent {s with
        tasks := s.withdraw (· == id)
        inflight := Function.update s.inflight id none} :=
      ok.withdraw (by simp +contextual) (by simp +contextual) s.connected
    simpa only [Function.update_idem] using cleared.accept (Function.update_self id none s.inflight)
  | abort id =>
    simp only [step] at taken
    split_ifs at taken
    cases taken
    exact ok.withdraw (by simp +contextual) (by simp +contextual) s.connected
  | disconnect =>
    simp only [step] at taken
    split_ifs at taken
    cases taken
    exact ok.withdraw (by simp) (by simp) false
  | finish g =>
    cases found : s.tasks g with
    | none => simp [step,found] at taken
    | some task =>
      simp only [step,found] at taken
      split_ifs at taken with ended listed
      · cases taken
        refine ok.leave found (not_not.mp ended) (.inl rfl) ?_ ?_
        · intro id
          by_cases same : id = task.id
          · subst same
            simp
          · rw [Function.update_of_ne same]
            intro listed'
            obtain ⟨task',found',same',_⟩ := ok.entry id g listed'
            rw [found] at found'
            cases found'
            exact same same'.symm
        · intro id h different
          by_cases same : id = task.id
          · subst same
            simp [listed,Ne.symm different]
          · rw [Function.update_of_ne same]
      · cases taken
        have running := not_not.mp ended
        refine ok.leave found running (.inr ⟨rfl,?_⟩) (ok.unlisted found (.inr listed)) fun _ _ _ => Iff.rfl
        by_contra kept
        exact listed (ok.registered g task found running (by simpa using kept))
  | send g =>
    cases found : s.tasks g with
    | none => simp [step,found] at taken
    | some task =>
      simp only [step,found] at taken
      split_ifs at taken with wanted
      cases taken
      exact ok.send found (not_not.mp wanted)
  | drop g =>
    cases found : s.tasks g with
    | none => simp [step,found] at taken
    | some task =>
      simp only [step,found] at taken
      split_ifs at taken with kept
      cases taken
      simp only [Bool.or_eq_true,decide_eq_true_eq,not_or,not_not,Bool.not_eq_true',Bool.not_eq_false] at kept
      obtain ⟨running,aborted⟩ := kept
      have withdrawn := ok.dropped g task found (.inr aborted)
      refine ok.leave found running (.inr ⟨rfl,withdrawn⟩) (ok.unlisted found (.inr ?_)) fun _ _ _ => Iff.rfl
      intro listed
      obtain ⟨task',found',_,_,kept'⟩ := ok.entry _ g listed
      rw [found] at found'
      cases found'
      rw [withdrawn] at kept'
      cases kept'

end Client

end Sharko.Netstack.Service
