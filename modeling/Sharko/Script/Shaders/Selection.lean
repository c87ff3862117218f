import Mathlib.Data.List.Induction
import Sharko.Script.Shaders.Groups

/-! The output of the preprocessor, line by line. -/

namespace Sharko.Script.Shaders.Preprocessor

open Sharko.Library

section

variable {supported : List Text} {st st' : State} {line : Line} {d : Directive} {rest : Text}

def Line.nest (n : ℕ) : Line → Option ℕ
  | .directive (.opening _) _ => some (n + 1)
  | .directive .elif _ | .directive .otherwise _ => if n = 0 then none else some n
  | .directive .endif _ => if n = 0 then none else some (n - 1)
  | _ => some n

def Balanced (lines : List Line) : Prop := lines.foldlM Line.nest 0 = some 0

/-- Inside of code that is not active it does not matter whether a branch was taken. -/
def Frame.Alike (f g : Frame) : Prop := f.par = g.par ∧ (f.par = true → f.taken = g.taken)

def State.Alike (a b : State) : Prop :=
  ∃ stack,b = { a with stack := stack } ∧ List.Forall₂ Frame.Alike a.stack stack

/-- The same line, or the condition of a directive which the state has no regard for. -/
def SameBut (st : State) (line line' : Line) : Prop :=
  line' = line ∨ st.regards line = false ∧ ∃ d rest rest',(d = .elif ∨ ∃ o,d = .opening o) ∧
    line = .directive d rest ∧ line' = .directive d rest'

theorem Frame.Alike.refl (f : Frame) : f.Alike f := ⟨rfl,fun _ => rfl⟩

theorem openingTest_ok {o : Opening} (rest : Text) (inactive : st.active = false) :
    ∃ v,openingTest st o rest = .ok v := by
  cases o with
  | ifExpr => exact ⟨false,if_pos ⟨rfl,inactive⟩⟩
  | ifdef => exact ⟨_,if_neg fun h => nomatch h.1⟩
  | ifndef => exact ⟨_,if_neg fun h => nomatch h.1⟩

theorem step_opening_of {o : Opening} {v : Bool} (tested : openingTest (st.next []) o rest = .ok v) :
    step supported st (.directive (.opening o) rest) = .ok (openGroup (st.next []) v) := by
  rw [step_directive,obey]
  exact Folds.bind_ok.mpr ⟨v,tested,rfl⟩

theorem step_elif_of {s : Frame} {below : List Frame} (stack : st.stack = s :: below)
    (closed : (s.par && !s.taken) = false) : ∃ s',s'.par = s.par ∧ (s.par = true → s'.taken = s.taken) ∧
      step supported st (.directive .elif rest) =
        .ok { st.next [] with stack := s' :: below,active := false } := by
  rw [step_directive,obey,next_stack,stack]
  dsimp only
  cases taken : s.taken with
  | true =>
    refine ⟨s,rfl,fun _ => taken,?_⟩
    rw [if_pos rfl,← stack]
  | false =>
    have par : s.par = false := by simpa [taken] using closed
    refine ⟨⟨s.par,false⟩,rfl,fun _ => rfl,?_⟩
    rw [if_neg Bool.false_ne_true]
    refine Folds.bind_ok.mpr ⟨false,?_,?_⟩
    · rw [elifTest,par,if_neg Bool.false_ne_true]
    · rw [par]
      rfl

theorem step_elif_open {s : Frame} {below : List Frame} {v : Bool} (stack : st.stack = s :: below)
    (taken : s.taken = false) (tested : elifTest (st.next []) s rest = .ok v) :
    step supported st (.directive .elif rest) =
      .ok { st.next [] with stack := ⟨s.par,v⟩ :: below,active := s.par && v } := by
  rw [step_directive,obey,next_stack,stack]
  dsimp only
  rw [taken,if_neg Bool.false_ne_true]
  exact Folds.bind_ok.mpr ⟨v,tested,rfl⟩

theorem step_otherwise_of {s : Frame} {below : List Frame} (stack : st.stack = s :: below) :
    step supported st (.directive .otherwise rest) =
      .ok { st.next [] with stack := ⟨s.par,true⟩ :: below,active := s.par && !s.taken } := by
  rw [step_directive,obey,next_stack,stack]

theorem step_endif_of {s : Frame} {below : List Frame} (stack : st.stack = s :: below) :
    step supported st (.directive .endif rest) = .ok { st.next [] with stack := below,active := s.par } := by
  rw [step_directive,obey,next_stack,stack]

theorem step_alike {a b a' : State} {line' : Line} (alike : a.Alike b) (same : SameBut a line line')
    (done : step supported a line = .ok a') : ∃ b',step supported b line' = .ok b' ∧ a'.Alike b' := by
  obtain ⟨stack,rfl,frames⟩ := alike
  by_cases plain : line.isPlain = true
  · -- A plain line is the same on both sides and leaves the stack alone.
    rcases same with rfl | ⟨-,d,rest,rest',condition,rfl,rfl⟩
    · refine ⟨_,step_stack plain stack done,stack,rfl,?_⟩
      rw [(step_plain plain done).1]
      exact frames
    · rcases condition with rfl | ⟨o,rfl⟩ <;> cases plain
  · cases line with
    | text t => exact absurd rfl plain
    | directive d rest =>
      have obeyed : obey supported (a.next []) d rest = .ok a' := done
      cases d with
      | opening o =>
        obtain ⟨v,tested,rfl⟩ := obey_opening obeyed
        rcases same with rfl | ⟨unregarded,d,rest,rest',-,same,rfl⟩
        · refine ⟨_,step_opening_of tested,⟨a.active,v⟩ :: stack,rfl,?_⟩
          exact List.Forall₂.cons (Frame.Alike.refl _) frames
        · cases same
          have inactive : a.active = false := unregarded
          obtain ⟨v',tested'⟩ := @openingTest_ok (a.next []) o rest' inactive
          refine ⟨_,step_opening_of tested',⟨a.active,v'⟩ :: stack,?_,?_⟩
          · simp only [openGroup,next_active,inactive,Bool.false_and]
            rfl
          · exact List.Forall₂.cons ⟨rfl,fun par => absurd (par.symm.trans inactive) (by decide)⟩ frames
      | elif =>
        obtain ⟨s,below,top,result⟩ := obey_elif obeyed
        rw [next_stack] at top
        rw [top,List.forall₂_cons_left_iff] at frames
        obtain ⟨s₂,below₂,⟨par,taken⟩,others,rfl⟩ := frames
        cases closed : s.par && !s.taken with
        | false =>
          have closed₂ : (s₂.par && !s₂.taken) = false := by
            rw [← par]
            cases p : s.par with
            | false => rfl
            | true => rw [← taken p,← p,closed]
          have elif' : ∃ rest',line' = .directive .elif rest' := by
            rcases same with rfl | ⟨-,d,rest,rest',-,same,rfl⟩
            · exact ⟨rest,rfl⟩
            · cases same
              exact ⟨rest',rfl⟩
          obtain ⟨rest',rfl⟩ := elif'
          obtain ⟨s',par',taken',stepped⟩ := @step_elif_of supported a rest s below top closed
          obtain ⟨s₂',par₂,taken₂,stepped₂⟩ := @step_elif_of supported { a with stack := s₂ :: below₂ }
            rest' s₂ below₂ rfl closed₂
          rw [done] at stepped
          cases stepped
          refine ⟨_,stepped₂,s₂' :: below₂,rfl,List.Forall₂.cons ⟨?_,fun p => ?_⟩ others⟩
          · rw [par',par₂,par]
          · rw [par'] at p
            rw [taken' p,taken₂ (par.symm.trans p),taken p]
        | true =>
          obtain ⟨p,t⟩ := (Bool.and_eq_true _ _).mp closed
          rw [Bool.not_eq_true'] at t
          have equal : s₂ = s := by
            cases s
            cases s₂
            simp_all
          subst equal
          have line'' : line' = .directive .elif rest := by
            rcases same with rfl | ⟨unregarded,-⟩
            · rfl
            · rw [State.regards,top] at unregarded
              exact absurd (closed.symm.trans unregarded) (by decide)
          subst line''
          rcases result with ⟨t',-⟩ | ⟨-,v,tested,rfl⟩
          · rw [t] at t'
            cases t'
          · refine ⟨_,step_elif_open rfl t tested,⟨s₂.par,v⟩ :: below₂,rfl,?_⟩
            exact List.Forall₂.cons (Frame.Alike.refl _) others
      | otherwise =>
        obtain ⟨s,below,top,rfl⟩ := obey_otherwise obeyed
        rw [next_stack] at top
        rw [top,List.forall₂_cons_left_iff] at frames
        obtain ⟨s₂,below₂,⟨par,taken⟩,others,rfl⟩ := frames
        obtain rfl : line' = .directive .otherwise rest := by
          rcases same with rfl | ⟨-,d,rest,rest',condition,same,-⟩
          · rfl
          · cases same
            rcases condition with bad | ⟨o,bad⟩ <;> cases bad
        refine ⟨_,step_otherwise_of rfl,⟨s₂.par,true⟩ :: below₂,?_,?_⟩
        · rw [← par]
          cases p : s.par with
          | false => rfl
          | true =>
            rw [← taken p]
            rfl
        · exact List.Forall₂.cons ⟨par,fun _ => rfl⟩ others
      | endif =>
        obtain ⟨s,below,top,rfl⟩ := obey_endif obeyed
        rw [next_stack] at top
        rw [top,List.forall₂_cons_left_iff] at frames
        obtain ⟨s₂,below₂,⟨par,-⟩,others,rfl⟩ := frames
        obtain rfl : line' = .directive .endif rest := by
          rcases same with rfl | ⟨-,d,rest,rest',condition,same,-⟩
          · rfl
          · cases same
            rcases condition with bad | ⟨o,bad⟩ <;> cases bad
        refine ⟨_,step_endif_of rfl,below₂,?_,others⟩
        rw [par]
        rfl
      | _ => exact absurd rfl plain

end

section

variable {supported : List Text} {lines : List Line} {st st' : State}

end

end Sharko.Script.Shaders.Preprocessor
