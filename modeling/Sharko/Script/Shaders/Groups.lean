import Sharko.Script.Shaders.LineBreaks

/-! Conditional groups: a line is passed on where every group around it stands in the first branch whose
condition held. -/

namespace Sharko.Script.Shaders.Preprocessor

open Sharko.Library

def Line.isPlain : Line → Bool
  | .directive d _ =>
    match d with
    | .opening _ | .elif | .otherwise | .endif => false
    | _ => true
  | .text _ => true

mutual

/-- Lines with properly nested groups. -/
inductive Items where
  | nil
  | line (l : Line) (plain : l.isPlain = true) (rest : Items)
  | group (o : Opening) (condition : Text) (body : Items) (branches : Branches) (rest : Items)

/-- What follows the first branch of a group. -/
inductive Branches where
  | endif (text : Text)
  | elif (condition : Text) (body : Items) (more : Branches)
  | otherwise (text : Text) (body : Items) (ending : Text)

end

mutual

def Items.flatten : Items → List Line
  | .nil => []
  | .line l _ rest => l :: rest.flatten
  | .group o condition body branches rest =>
    .directive (.opening o) condition :: (body.flatten ++ (branches.flatten ++ rest.flatten))

def Branches.flatten : Branches → List Line
  | .endif text => [.directive .endif text]
  | .elif condition body more => .directive .elif condition :: (body.flatten ++ more.flatten)
  | .otherwise text body ending =>
    .directive .otherwise text :: (body.flatten ++ [.directive .endif ending])

end

/-- A branch of a group, by the lines of the conditions before it and of its own, which `#else` has not. -/
structure Branch where
  earlier : List ℕ
  own : Option ℕ

/-- Where a line stands: the branches around it, the innermost first, and for `#elif` the conditions before
it in its group. -/
structure Place where
  line : ℕ
  within : List Branch
  earlier : List ℕ := []

mutual

def Items.places (n : ℕ) (within : List Branch) : Items → List Place
  | .nil => []
  | .line _ _ rest => ⟨n,within,[]⟩ :: rest.places (n + 1) within
  | .group _ _ body branches rest =>
    ⟨n,within,[]⟩ :: (body.places (n + 1) (⟨[],some n⟩ :: within) ++
      (branches.places (n + 1 + body.flatten.length) [n] within ++
        rest.places (n + 1 + body.flatten.length + branches.flatten.length) within))

def Branches.places (n : ℕ) (earlier : List ℕ) (within : List Branch) : Branches → List Place
  | .endif _ => [⟨n,within,[]⟩]
  | .elif _ body more =>
    ⟨n,within,earlier⟩ :: (body.places (n + 1) (⟨earlier,some n⟩ :: within) ++
      more.places (n + 1 + body.flatten.length) (earlier ++ [n]) within)
  | .otherwise _ body _ =>
    ⟨n,within,[]⟩ :: (body.places (n + 1) (⟨earlier,none⟩ :: within) ++
      [⟨n + 1 + body.flatten.length,within,[]⟩])

end

def Branch.First (held : ℕ → Prop) (b : Branch) : Prop := (∀ j ∈ b.earlier,¬ held j) ∧ ∀ j ∈ b.own,held j

/-- All branches around the line are first, and no condition of its group held before it. -/
def Place.Reached (held : ℕ → Prop) (p : Place) : Prop :=
  (∀ b ∈ p.within,b.First held) ∧ ∀ j ∈ p.earlier,¬ held j

mutual

theorem Items.places_lines (n : ℕ) (within : List Branch) (items : Items) :
    (items.places n within).map Place.line = List.range' n items.flatten.length := by
  cases items with
  | nil => rfl
  | line l plain rest =>
    rw [Items.places,Items.flatten,List.map_cons,rest.places_lines,List.length_cons,List.range'_succ]
  | group o condition body branches rest =>
    rw [Items.places,Items.flatten,List.map_cons,List.map_append,List.map_append,body.places_lines,
      branches.places_lines,rest.places_lines,List.length_cons,List.range'_succ,List.length_append,
      List.length_append,List.range'_append_1,List.range'_append_1]

theorem Branches.places_lines (n : ℕ) (earlier : List ℕ) (within : List Branch) (branches : Branches) :
    (branches.places n earlier within).map Place.line = List.range' n branches.flatten.length := by
  cases branches with
  | endif text => rfl
  | elif condition body more =>
    rw [Branches.places,Branches.flatten,List.map_cons,List.map_append,body.places_lines,more.places_lines,
      List.length_cons,List.range'_succ,List.length_append,List.range'_append_1]
  | otherwise text body ending =>
    rw [Branches.places,Branches.flatten,List.map_cons,List.map_append,body.places_lines,List.length_cons,
      List.range'_succ,List.length_append,List.length_singleton,← List.range'_append_1]
    rfl

end

section

variable {supported : List Text} {st st' : State} {line : Line} {d : Directive} {rest : Text}

@[simp] theorem next_stack (t : Text) : (st.next t).stack = st.stack := rfl

@[simp] theorem next_active (t : Text) : (st.next t).active = st.active := rfl

def Changes (st : State) (rest : Text) (st' : State) : Prop :=
  ∃ macros version extensions,
    st' = { st with macros := macros,version := version,extensions := extensions } ∧
      (CleanMacros st.macros → Clean rest → CleanMacros macros)

theorem Changes.refl (st : State) (rest : Text) : Changes st rest st := ⟨_,_,_,rfl,fun clean _ => clean⟩

theorem setVersion_stack (stack : List Frame) : setVersion { st with stack := stack } rest =
      (setVersion st rest).map fun st' => { st' with stack := stack } := by
  unfold setVersion
  dsimp only
  split_ifs with code
  · rfl
  · cases versionOf rest with
    | none => rfl
    | some found =>
      dsimp only
      split_ifs <;> rfl

theorem setVersion_changes (done : setVersion st rest = .ok st') : Changes st rest st' := by
  unfold setVersion at done
  split_ifs at done
  · cases done
  · cases v : versionOf rest with
    | none =>
      rw [v] at done
      cases done
    | some found =>
      rw [v] at done
      dsimp only at done
      split_ifs at done <;> cases done
      refine ⟨_,_,_,rfl,fun clean _ => clean.update fun mac new => ?_⟩
      cases new
      exact clean_toString _

theorem setMacro_stack (stack : List Frame) : setMacro { st with stack := stack } rest =
      (setMacro st rest).map fun st' => { st' with stack := stack } := by
  unfold setMacro
  dsimp only
  split_ifs <;> rfl

theorem setMacro_changes (done : setMacro st rest = .ok st') : Changes st rest st' := by
  unfold setMacro at done
  dsimp only at done
  split_ifs at done <;> cases done
  refine ⟨_,_,_,rfl,fun clean cleanRest => clean.update fun mac new => ?_⟩
  have body : Clean (trim (parametersOf (rest.drop (rest.takeWhile isWord).length)).2) :=
    cleanRest.of_subset (List.Subset.trans (trim_subset _)
      (List.Subset.trans (parametersOf_subset _) (List.drop_subset _ _)))
  generalize parametersOf (rest.drop (rest.takeWhile isWord).length) = parts at new body
  obtain ⟨params | params,rest'⟩ := parts <;> cases new <;> exact body

theorem setExtension_stack (stack : List Frame) : setExtension supported { st with stack := stack } rest =
      (setExtension supported st rest).map fun st' => { st' with stack := stack } := by
  unfold setExtension
  cases extensionOf rest with
  | none => rfl
  | some found =>
    dsimp only
    split_ifs <;> rfl

theorem setExtension_changes (done : setExtension supported st rest = .ok st') : Changes st rest st' := by
  unfold setExtension at done
  cases v : extensionOf rest with
  | none =>
    rw [v] at done
    cases done
  | some found =>
    rw [v] at done
    dsimp only at done
    split_ifs at done <;> cases done
    · exact Changes.refl st rest
    · refine ⟨_,_,_,rfl,fun clean _ => clean.update fun mac new => ?_⟩
      cases new
      unfold Clean Macro.body
      decide
    · exact ⟨_,_,_,rfl,fun clean _ => clean.update fun mac new => nomatch new⟩

theorem obey_stack (plain : (Line.directive d rest).isPlain = true) (stack : List Frame) :
    obey supported { st with stack := stack } d rest =
      (obey supported st d rest).map fun st' => { st' with stack := stack } := by
  cases d with
  | version => exact setVersion_stack stack
  | define =>
    unfold obey
    dsimp only
    split_ifs
    · exact setMacro_stack stack
    · rfl
  | undef =>
    unfold obey
    dsimp only
    split_ifs <;> rfl
  | extension =>
    unfold obey
    dsimp only
    split_ifs
    · exact setExtension_stack stack
    · rfl
  | error =>
    unfold obey
    dsimp only
    split_ifs <;> rfl
  | ignored => rfl
  | unknown name =>
    unfold obey
    dsimp only
    split_ifs <;> rfl
  | opening o => cases plain
  | elif => cases plain
  | otherwise => cases plain
  | endif => cases plain

theorem obey_changes (plain : (Line.directive d rest).isPlain = true)
    (done : obey supported st d rest = .ok st') : Changes st rest st' := by
  cases d with
  | version => exact setVersion_changes done
  | define =>
    unfold obey at done
    dsimp only at done
    split_ifs at done
    · exact setMacro_changes done
    · cases done
      exact Changes.refl st rest
  | undef =>
    unfold obey at done
    dsimp only at done
    split_ifs at done
    · cases done
      exact ⟨_,_,_,rfl,fun clean _ => clean.update fun mac new => nomatch new⟩
    · cases done
      exact Changes.refl st rest
  | extension =>
    unfold obey at done
    dsimp only at done
    split_ifs at done
    · exact setExtension_changes done
    · cases done
      exact Changes.refl st rest
  | error =>
    unfold obey at done
    dsimp only at done
    split_ifs at done
    · cases done
    · cases done
      exact Changes.refl st rest
  | ignored =>
    cases done
    exact Changes.refl st rest
  | unknown name =>
    unfold obey at done
    dsimp only at done
    split_ifs at done
    cases done
    exact Changes.refl st rest
  | opening o => cases plain
  | elif => cases plain
  | otherwise => cases plain
  | endif => cases plain

theorem obey_opening {o : Opening} (done : obey supported st (.opening o) rest = .ok st') :
    ∃ v,openingTest st o rest = .ok v ∧ st' = openGroup st v := by
  rw [obey] at done
  obtain ⟨v,tested,done⟩ := Folds.bind_ok.mp done
  cases done
  exact ⟨v,tested,rfl⟩

theorem obey_elif (done : obey supported st .elif rest = .ok st') :
    ∃ s below,st.stack = s :: below ∧ (s.taken = true ∧ st' = { st with active := false } ∨
      s.taken = false ∧ ∃ v,elifTest st s rest = .ok v ∧
        st' = { st with stack := ⟨s.par,v⟩ :: below,active := s.par && v }) := by
  rw [obey] at done
  cases stack : st.stack with
  | nil =>
    rw [stack] at done
    cases done
  | cons s below =>
    rw [stack] at done
    dsimp only at done
    refine ⟨s,below,rfl,?_⟩
    cases taken : s.taken with
    | true =>
      rw [taken,if_pos rfl] at done
      cases done
      exact Or.inl ⟨rfl,by rw [← stack]⟩
    | false =>
      rw [taken,if_neg Bool.false_ne_true] at done
      obtain ⟨v,tested,done⟩ := Folds.bind_ok.mp done
      cases done
      exact Or.inr ⟨rfl,v,tested,rfl⟩

theorem obey_otherwise (done : obey supported st .otherwise rest = .ok st') : ∃ s below,st.stack = s :: below ∧
      st' = { st with stack := ⟨s.par,true⟩ :: below,active := s.par && !s.taken } := by
  rw [obey] at done
  cases stack : st.stack with
  | nil =>
    rw [stack] at done
    cases done
  | cons s below =>
    rw [stack] at done
    cases done
    exact ⟨s,below,rfl,rfl⟩

theorem obey_endif (done : obey supported st .endif rest = .ok st') :
    ∃ s below,st.stack = s :: below ∧ st' = { st with stack := below,active := s.par } := by
  rw [obey] at done
  cases stack : st.stack with
  | nil =>
    rw [stack] at done
    cases done
  | cons s below =>
    rw [stack] at done
    cases done
    exact ⟨s,below,rfl,rfl⟩

theorem step_directive : step supported st (.directive d rest) = obey supported (st.next []) d rest := rfl

theorem step_text {t : Text} (done : step supported st (.text t) = .ok st') : ∃ u,emit st (.text t) = .ok u ∧
      st' = { st.next u with sawCode := st.sawCode || (st.active && trim t ≠ []) } := by
  obtain ⟨u,emitted,done⟩ := Folds.bind_ok.mp done
  cases done
  exact ⟨u,emitted,rfl⟩

theorem step_plain (plain : line.isPlain = true) (done : step supported st line = .ok st') :
    st'.stack = st.stack ∧ st'.active = st.active := by
  cases line with
  | text t =>
    obtain ⟨u,-,rfl⟩ := step_text done
    exact ⟨rfl,rfl⟩
  | directive d rest =>
    obtain ⟨macros,version,extensions,rfl,-⟩ := obey_changes plain done
    exact ⟨rfl,rfl⟩

theorem step_stack (plain : line.isPlain = true) (stack : List Frame)
    (done : step supported st line = .ok st') :
    step supported { st with stack := stack } line = .ok { st' with stack := stack } := by
  cases line with
  | text t =>
    obtain ⟨u,emitted,rfl⟩ := step_text done
    exact Folds.bind_ok.mpr ⟨u,emitted,rfl⟩
  | directive d rest =>
    have := @obey_stack supported (st.next []) d rest plain stack
    rw [step_directive] at done ⊢
    rw [done] at this
    exact this

end

/-- Some condition held, or the branch is that of `#else`. -/
def Branch.Taken (held : ℕ → Prop) (b : Branch) : Prop :=
  b.own = none ∨ ∃ j ∈ b.earlier ++ b.own.toList,held j

/-- The stack tells of every branch around a line whether its group is reached and a branch taken. -/
def Matches (held : ℕ → Prop) : List Branch → List Frame → Bool → Prop
  | [],[],active => active = true
  | b :: within,f :: stack,active =>
    (active = true ↔ f.par = true ∧ b.First held) ∧
      (f.par = true → (f.taken = true ↔ b.Taken held)) ∧ Matches held within stack f.par
  | _,_,_ => False

def Pending (held : ℕ → Prop) (earlier : List ℕ) (within : List Branch) (stack : List Frame) : Prop :=
  ∃ f below,stack = f :: below ∧ (f.par = true → (f.taken = true ↔ ∃ j ∈ earlier,held j)) ∧
    Matches held within below f.par

theorem Matches.active_iff {held : ℕ → Prop} {within : List Branch} {stack : List Frame} {active : Bool}
    (matched : Matches held within stack active) : active = true ↔ ∀ b ∈ within,b.First held := by
  induction within generalizing stack active with
  | nil =>
    cases stack with
    | nil => exact iff_of_true matched fun b mem => nomatch mem
    | cons f stack => exact matched.elim
  | cons b within ih =>
    cases stack with
    | nil => exact matched.elim
    | cons f stack =>
      obtain ⟨first,-,below⟩ := matched
      rw [first,ih below,List.forall_mem_cons,and_comm]

theorem Matches.pending {held : ℕ → Prop} {b : Branch} {within : List Branch} {stack : List Frame}
    {active : Bool} {j : ℕ} (matched : Matches held (b :: within) stack active) (own : b.own = some j) :
    Pending held (b.earlier ++ [j]) within stack := by
  cases stack with
  | nil => exact matched.elim
  | cons f stack =>
    obtain ⟨-,taken,below⟩ := matched
    refine ⟨f,stack,rfl,fun par => ?_,below⟩
    rw [taken par,Branch.Taken,own]
    simp

section

variable (supported : List Text) (lines : List Line)

def stateBefore (i : ℕ) : Except GlslError State := run supported initial (lines.take i)

def Held (i : ℕ) : Prop := ∃ st d rest,stateBefore supported lines i = .ok st ∧
  lines[i]? = some (.directive d rest) ∧ test st.macros (st.lineNo + 1) d rest = .ok true

/-- Whether the line has an effect, where it is passed on or its condition is evaluated. -/
def State.regards (st : State) : Line → Bool
  | .directive .elif _ => match st.stack with
    | s :: _ => s.par && !s.taken
    | [] => false
  | .directive .otherwise _ | .directive .endif _ => match st.stack with
    | s :: _ => s.par
    | [] => false
  | _ => st.active

/-- The code has a regard for the line just where it is reached. -/
def Place.Right (p : Place) : Prop := ∃ st line,stateBefore supported lines p.line = .ok st ∧
  lines[p.line]? = some line ∧ (st.regards line = true ↔ p.Reached (Held supported lines))

end

section

variable {supported : List Text} {lines pre post : List Line} {st st' : State} {within : List Branch}

theorem stateBefore_split (whole : lines = pre ++ post) (before : run supported initial pre = .ok st) :
    stateBefore supported lines pre.length = .ok st := by
  rw [stateBefore,whole,List.take_left,before]

theorem line_split {line : Line} (whole : lines = pre ++ line :: post) : lines[pre.length]? = some line := by
  rw [whole,List.getElem?_append_right (Nat.le_refl _),Nat.sub_self]
  rfl

theorem held_iff {d : Directive} {rest : Text} (whole : lines = pre ++ .directive d rest :: post)
    (before : run supported initial pre = .ok st) :
    Held supported lines pre.length ↔ test st.macros (st.lineNo + 1) d rest = .ok true := by
  have state := stateBefore_split whole before
  have line := line_split whole
  constructor
  · rintro ⟨st₂,d₂,rest₂,state₂,line₂,holds⟩
    rw [state] at state₂
    rw [line] at line₂
    cases state₂
    cases line₂
    exact holds
  · intro holds
    exact ⟨st,d,rest,state,line,holds⟩

theorem run_snoc {line : Line} (before : run supported initial pre = .ok st)
    (done : step supported st line = .ok st') : run supported initial (pre ++ [line]) = .ok st' :=
  Folds.append_ok.mpr ⟨st,before,Folds.cons_ok.mpr ⟨st',done,rfl⟩⟩

theorem Matches.right {line : Line} (whole : lines = pre ++ line :: post)
    (before : run supported initial pre = .ok st)
    (matched : Matches (Held supported lines) within st.stack st.active)
    (simple : st.regards line = st.active) : Place.Right supported lines ⟨pre.length,within,[]⟩ := by
  refine ⟨st,line,stateBefore_split whole before,line_split whole,?_⟩
  rw [simple,matched.active_iff]
  exact ⟨fun all => ⟨all,fun j mem => nomatch mem⟩,fun reached => reached.1⟩

theorem regards_plain {line : Line} (plain : line.isPlain = true) : st.regards line = st.active := by
  cases line with
  | text t => rfl
  | directive d rest => cases d <;> first | rfl | cases plain

theorem opening_step {o : Opening} {condition : Text}
    (whole : lines = pre ++ .directive (.opening o) condition :: post)
    (before : run supported initial pre = .ok st)
    (matched : Matches (Held supported lines) within st.stack st.active)
    (done : step supported st (.directive (.opening o) condition) = .ok st') :
    Matches (Held supported lines) (⟨[],some pre.length⟩ :: within) st'.stack st'.active := by
  rw [step_directive] at done
  obtain ⟨v,tested,rfl⟩ := obey_opening done
  have holds : st.active = true → (v = true ↔ Held supported lines pre.length) := by
    intro active
    rw [openingTest,if_neg (by simp [active])] at tested
    rw [held_iff whole before]
    constructor
    · rintro rfl
      exact tested
    · intro holds
      exact Except.ok.inj (tested.symm.trans holds)
  refine ⟨?_,?_,matched⟩
  · show (st.active && v) = true ↔ st.active = true ∧ _
    rw [Bool.and_eq_true]
    refine and_congr_right fun active => ?_
    rw [holds active]
    simp [Branch.First]
  · intro active
    show v = true ↔ _
    rw [holds active]
    simp [Branch.Taken]

theorem elif_step {earlier : List ℕ} {condition : Text}
    (whole : lines = pre ++ .directive .elif condition :: post) (before : run supported initial pre = .ok st)
    (pending : Pending (Held supported lines) earlier within st.stack)
    (done : step supported st (.directive .elif condition) = .ok st') :
    Matches (Held supported lines) (⟨earlier,some pre.length⟩ :: within) st'.stack st'.active ∧
      Place.Right supported lines ⟨pre.length,within,earlier⟩ := by
  obtain ⟨s,below,stack,taken,matched⟩ := pending
  have right : Place.Right supported lines ⟨pre.length,within,earlier⟩ := by
    refine ⟨st,_,stateBefore_split whole before,line_split whole,?_⟩
    show State.regards st (.directive .elif condition) = true ↔ _
    rw [State.regards,stack]
    dsimp only
    rw [Bool.and_eq_true,Place.Reached,← matched.active_iff]
    refine and_congr_right fun par => ?_
    rw [Bool.not_eq_true',← Bool.not_eq_true,taken par]
    simp
  refine ⟨?_,right⟩
  rw [step_directive] at done
  obtain ⟨s',below',stack',done⟩ := obey_elif done
  rw [next_stack,stack] at stack'
  cases stack'
  rcases done with ⟨taken',rfl⟩ | ⟨taken',v,tested,rfl⟩
  · show Matches _ _ st.stack _
    rw [stack]
    refine ⟨?_,?_,matched⟩
    · refine iff_of_false Bool.false_ne_true ?_
      rintro ⟨par,first⟩
      obtain ⟨j,mem,held⟩ := (taken par).mp taken'
      exact first.1 j mem held
    · intro par
      refine iff_of_true taken' (Or.inr ?_)
      obtain ⟨j,mem,held⟩ := (taken par).mp taken'
      exact ⟨j,List.mem_append_left _ mem,held⟩
  · rw [← Bool.not_eq_true] at taken'
    have none : s.par = true → ∀ j ∈ earlier,¬ Held supported lines j := fun par j mem held =>
      taken' ((taken par).mpr ⟨j,mem,held⟩)
    have holds : s.par = true → (v = true ↔ Held supported lines pre.length) := by
      intro par
      rw [elifTest,if_pos par] at tested
      rw [held_iff whole before]
      constructor
      · rintro rfl
        exact tested
      · intro holds
        exact Except.ok.inj (tested.symm.trans holds)
    refine ⟨?_,?_,matched⟩
    · show (s.par && v) = true ↔ s.par = true ∧ _
      rw [Bool.and_eq_true]
      refine and_congr_right fun par => ?_
      rw [holds par]
      simpa [Branch.First] using fun _ => none par
    · intro par
      show v = true ↔ _
      rw [holds par]
      simp only [Branch.Taken,reduceCtorEq,false_or,Option.toList_some,List.mem_append,
        List.mem_singleton]
      constructor
      · intro held
        exact ⟨pre.length,Or.inr rfl,held⟩
      · rintro ⟨j,mem | rfl,held⟩
        · exact absurd held (none par j mem)
        · exact held

theorem otherwise_step {earlier : List ℕ} {text : Text}
    (pending : Pending (Held supported lines) earlier within st.stack)
    (done : step supported st (.directive .otherwise text) = .ok st') :
    Matches (Held supported lines) (⟨earlier,none⟩ :: within) st'.stack st'.active := by
  obtain ⟨s,below,stack,taken,matched⟩ := pending
  rw [step_directive] at done
  obtain ⟨s',below',stack',rfl⟩ := obey_otherwise done
  rw [next_stack,stack] at stack'
  cases stack'
  refine ⟨?_,fun _ => iff_of_true rfl (Or.inl rfl),matched⟩
  show (s.par && !s.taken) = true ↔ s.par = true ∧ _
  rw [Bool.and_eq_true]
  refine and_congr_right fun par => ?_
  rw [Bool.not_eq_true',← Bool.not_eq_true,taken par]
  simp [Branch.First]

theorem endif_step {text : Text} {f : Frame} {below : List Frame} (stack : st.stack = f :: below)
    (done : step supported st (.directive .endif text) = .ok st') : st'.stack = below ∧ st'.active = f.par := by
  rw [step_directive] at done
  obtain ⟨s',below',stack',rfl⟩ := obey_endif done
  rw [next_stack,stack] at stack'
  cases stack'
  exact ⟨rfl,rfl⟩

theorem right_of_top {d : Directive} {text : Text} {f : Frame} {below : List Frame}
    (whole : lines = pre ++ .directive d text :: post) (before : run supported initial pre = .ok st)
    (closing : d = .otherwise ∨ d = .endif) (stack : st.stack = f :: below)
    (matched : Matches (Held supported lines) within below f.par) :
    Place.Right supported lines ⟨pre.length,within,[]⟩ := by
  refine ⟨st,_,stateBefore_split whole before,line_split whole,?_⟩
  have : st.regards (.directive d text) = f.par := by
    rcases closing with rfl | rfl <;> rw [State.regards,stack]
  rw [this,matched.active_iff]
  exact ⟨fun all => ⟨all,fun j mem => nomatch mem⟩,fun reached => reached.1⟩

end

section

variable {supported : List Text} {lines : List Line}

mutual

theorem Items.right (items : Items) {pre post : List Line} {within : List Branch} {st st' : State}
    (whole : lines = pre ++ (items.flatten ++ post)) (before : run supported initial pre = .ok st)
    (matched : Matches (Held supported lines) within st.stack st.active)
    (done : run supported st items.flatten = .ok st') :
    Matches (Held supported lines) within st'.stack st'.active ∧
      ∀ p ∈ items.places pre.length within,p.Right supported lines := by
  cases items with
  | nil =>
    cases done
    exact ⟨matched,fun p mem => nomatch mem⟩
  | line l plain rest =>
    obtain ⟨m,first,done⟩ := Folds.cons_ok.mp done
    obtain ⟨stack,active⟩ := step_plain plain first
    have here := Matches.right whole before matched (regards_plain plain)
    have next : lines = (pre ++ [l]) ++ (rest.flatten ++ post) := by
      rw [whole,Items.flatten,List.append_assoc]
      rfl
    obtain ⟨matched',all⟩ := rest.right next (run_snoc before first)
      (by rw [stack,active]; exact matched) done
    rw [List.length_append,List.length_singleton] at all
    exact ⟨matched',List.forall_mem_cons.mpr ⟨here,all⟩⟩
  | group o condition body branches rest =>
    obtain ⟨m,first,done⟩ := Folds.cons_ok.mp done
    obtain ⟨m₂,second,done⟩ := Folds.append_ok.mp done
    obtain ⟨m₃,third,done⟩ := Folds.append_ok.mp done
    have here := Matches.right whole before matched rfl
    have opened := opening_step whole before matched first
    have before₁ := run_snoc before first
    have before₂ : run supported initial (pre ++ [.directive (.opening o) condition] ++ body.flatten) =
        .ok m₂ := Folds.append_ok.mpr ⟨m,before₁,second⟩
    have before₃ : run supported initial (pre ++ [.directive (.opening o) condition] ++ body.flatten ++
        branches.flatten) = .ok m₃ := Folds.append_ok.mpr ⟨m₂,before₂,third⟩
    have whole₁ : lines = pre ++ [.directive (.opening o) condition] ++
        (body.flatten ++ (branches.flatten ++ (rest.flatten ++ post))) := by
      rw [whole,Items.flatten]
      simp only [List.append_assoc,List.cons_append,List.nil_append]
    have whole₂ := whole₁.trans (List.append_assoc ..).symm
    obtain ⟨matched₂,all₁⟩ := body.right whole₁ before₁ opened second
    obtain ⟨matched₃,all₂⟩ := branches.right whole₂ before₂ (matched₂.pending rfl) third
    obtain ⟨matched₄,all₃⟩ := rest.right (whole₂.trans (List.append_assoc ..).symm) before₃ matched₃ done
    simp only [List.length_append,List.length_singleton] at all₁ all₂ all₃
    exact ⟨matched₄,List.forall_mem_cons.mpr ⟨here,List.forall_mem_append.mpr
      ⟨all₁,List.forall_mem_append.mpr ⟨all₂,all₃⟩⟩⟩⟩

theorem Branches.right (branches : Branches) {pre post : List Line} {earlier : List ℕ}
    {within : List Branch} {st st' : State} (whole : lines = pre ++ (branches.flatten ++ post))
    (before : run supported initial pre = .ok st)
    (pending : Pending (Held supported lines) earlier within st.stack)
    (done : run supported st branches.flatten = .ok st') :
    Matches (Held supported lines) within st'.stack st'.active ∧
      ∀ p ∈ branches.places pre.length earlier within,p.Right supported lines := by
  cases branches with
  | endif text =>
    obtain ⟨m,first,done⟩ := Folds.cons_ok.mp done
    cases done
    obtain ⟨f,below,stack,-,matched⟩ := pending
    have here := right_of_top whole before (Or.inr rfl) stack matched
    obtain ⟨stack',active⟩ := endif_step stack first
    exact ⟨by rw [stack',active]; exact matched,List.forall_mem_singleton.mpr here⟩
  | elif condition body more =>
    obtain ⟨m,first,done⟩ := Folds.cons_ok.mp done
    obtain ⟨m₂,second,done⟩ := Folds.append_ok.mp done
    obtain ⟨opened,here⟩ := elif_step whole before pending first
    have before₁ := run_snoc before first
    have before₂ : run supported initial (pre ++ [.directive .elif condition] ++ body.flatten) =
        .ok m₂ := Folds.append_ok.mpr ⟨m,before₁,second⟩
    have whole₁ : lines = pre ++ [.directive .elif condition] ++
        (body.flatten ++ (more.flatten ++ post)) := by
      rw [whole,Branches.flatten]
      simp only [List.append_assoc,List.cons_append,List.nil_append]
    obtain ⟨matched₂,all₁⟩ := body.right whole₁ before₁ opened second
    obtain ⟨matched₃,all₂⟩ := more.right (whole₁.trans (List.append_assoc ..).symm) before₂
      (matched₂.pending rfl) done
    simp only [List.length_append,List.length_singleton] at all₁ all₂
    exact ⟨matched₃,List.forall_mem_cons.mpr ⟨here,List.forall_mem_append.mpr ⟨all₁,all₂⟩⟩⟩
  | otherwise text body ending =>
    obtain ⟨m,first,done⟩ := Folds.cons_ok.mp done
    obtain ⟨m₂,second,done⟩ := Folds.append_ok.mp done
    obtain ⟨m₃,third,done⟩ := Folds.cons_ok.mp done
    cases done
    have opened := otherwise_step pending first
    obtain ⟨f,below,stack,-,matched⟩ := pending
    have here := right_of_top whole before (Or.inl rfl) stack matched
    have before₁ := run_snoc before first
    have before₂ : run supported initial (pre ++ [.directive .otherwise text] ++ body.flatten) =
        .ok m₂ := Folds.append_ok.mpr ⟨m,before₁,second⟩
    have whole₁ : lines = pre ++ [.directive .otherwise text] ++
        (body.flatten ++ .directive .endif ending :: post) := by
      rw [whole,Branches.flatten]
      simp only [List.append_assoc,List.cons_append,List.nil_append]
    obtain ⟨matched₂,all₁⟩ := body.right whole₁ before₁ opened second
    cases stack₂ : m₂.stack with
    | nil =>
      rw [stack₂] at matched₂
      exact matched₂.elim
    | cons f₂ below₂ =>
      rw [stack₂] at matched₂
      have last := right_of_top (whole₁.trans (List.append_assoc ..).symm) before₂ (Or.inr rfl) stack₂
        matched₂.2.2
      obtain ⟨stack₃,active⟩ := endif_step stack₂ third
      simp only [List.length_append,List.length_singleton] at all₁ last
      exact ⟨by rw [stack₃,active]; exact matched₂.2.2,List.forall_mem_cons.mpr
        ⟨here,List.forall_mem_append.mpr ⟨all₁,List.forall_mem_singleton.mpr last⟩⟩⟩

end

end

end Sharko.Script.Shaders.Preprocessor
