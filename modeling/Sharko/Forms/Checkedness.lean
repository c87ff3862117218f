import Sharko.Forms.Inputs
import Sharko.Library.Runs

/-! Where the checkedness of an input is kept: in the data of a checkbox, beside the element for the
other types, and in the attribute as long as nothing else is known. -/

namespace Sharko.Forms

open Library

/-- What blitz keeps for the kind of control that it takes the element for. -/
inductive SpecialData where
  | none
  | textInput
  | checkboxInput (checked : Bool)
  deriving DecidableEq

structure Input where
  type : Option String := .none
  checkedAttrs : ℕ := 0
  inDocument : Bool := false
  specialData : SpecialData := .none
  checkedState : Bool := false
  dirtyChecked : Bool := false
  otherChecked : Option Bool := .none
  deriving DecidableEq

namespace Input

variable (el : Input)

def hasChecked : Bool := 0 < el.checkedAttrs

def new (type : Option String) (checked inDocument : Bool) : Input :=
  { type
    checkedAttrs := if checked then 1 else 0
    inDocument
    checkedState := (type = some "checkbox" || type = some "radio") && checked }

def checkboxInputChecked : Option Bool :=
  match el.specialData with
  | .checkboxInput checked => some checked
  | _ => .none

def checkable : Bool := (isCheckable el.type).isSome

def getChecked : Bool :=
  if el.checkable then
    match el.checkboxInputChecked with
    | some b => b
    | .none => if el.dirtyChecked then el.checkedState else el.hasChecked
  else el.otherChecked.getD el.hasChecked

def writeCheckboxState (checked : Bool) : Input :=
  { el with specialData := .checkboxInput checked,checkedState := checked }

def setChecked (checked : Bool) : Input :=
  let el := if el.checkable then el.writeCheckboxState checked else { el with otherChecked := some checked }
  { el with dirtyChecked := true }

def typeChanged : Input :=
  match el.checkable,el.checkboxInputChecked with
  | true,.none =>
    { el with otherChecked := .none }.writeCheckboxState (el.otherChecked.getD el.hasChecked)
  | false,some c =>
    { el with otherChecked := some c,specialData := .none,checkedState := false }
  | _,_ => el

def checkedChanged (set : Bool) : Input :=
  if el.checkable && !el.dirtyChecked then el.writeCheckboxState set else el

def parseBool (value : String) : Option Bool :=
  if value = "true" then some true else if value = "false" then some false else .none

def setInputCheckedState (value : String) : Input :=
  match parseBool value with
  | .none => el
  | some checked =>
    match el.specialData with
    | .checkboxInput _ => el.writeCheckboxState checked
    | .none => { el with checkedAttrs := el.checkedAttrs + 1 }
    | .textInput => el

def setCheckedAttr (value : String) : Input :=
  let el := { el with checkedAttrs := max el.checkedAttrs 1 }
  (if el.inDocument then el.setInputCheckedState value else el).checkedChanged true

def removeCheckedAttr : Input :=
  if el.checkedAttrs = 0 then el
  else { el with checkedAttrs := el.checkedAttrs - 1 }.checkedChanged false

def setType (type : Option String) : Input :=
  if type.isNone && el.type.isNone then el else { el with type }.typeChanged

def reset : Input :=
  let el := { el with dirtyChecked := false }
  match valueMode (inputType el.type) with
  | .defaultOn => el.writeCheckboxState el.hasChecked
  | _ => el

def layout : Input :=
  if !el.inDocument then el
  else if el.type = .none ∨ el.type ∈ ["text","password","email","number","search","tel","url"].map some then
    { el with specialData := .textInput }
  else if el.type = some "checkbox" ∨ el.type = some "radio" then
    match el.specialData with
    | .checkboxInput _ => el
    | _ => el.writeCheckboxState el.hasChecked
  else el

def edit : Input :=
  if valueMode (inputType el.type) = .text then { el with specialData := .textInput } else el

end Input

inductive Action where
  | setType (type : Option String)
  | setCheckedAttr (value : String)
  | removeCheckedAttr
  | check (checked : Bool)
  | reset
  | layout
  | edit
  | connect (inDocument : Bool)

/-- The element beside what it is meant to say, whatever its type. -/
structure Tracked where
  el : Input
  present : Bool
  last : Option Bool := none

namespace Tracked

variable (s : Tracked)

def expected : Bool := s.last.getD s.present

def Agrees : Prop := s.el.getChecked = s.expected

def step (s : Tracked) : Action → Option Tracked
  | .setType type => some { s with el := s.el.setType type }
  | .setCheckedAttr value => some { s with el := s.el.setCheckedAttr value,present := true }
  | .removeCheckedAttr => some { s with el := s.el.removeCheckedAttr,present := false }
  | .check checked => some { s with el := s.el.setChecked checked,last := some checked }
  | .reset => some { s with el := s.el.reset,last := none }
  | .layout => some { s with el := s.el.layout }
  | .edit => some { s with el := s.el.edit }
  | .connect inDocument => some { s with el := { s.el with inDocument } }

def new (type : Option String) (checked inDocument : Bool) : Tracked :=
  { el := Input.new type checked inDocument,present := checked }

instance : Decidable s.Agrees := inferInstanceAs (Decidable (_ = _))

/-- What is kept beside the element gives way to neither the attribute nor a reset, and blitz reads
the words true and false in the attribute as scripts do not mean them. -/
def Allowed (s : Tracked) : Action → Prop
  | .setCheckedAttr value =>
    (s.el.checkable = false → s.el.dirtyChecked = false → s.el.otherChecked ≠ some false) ∧
    (s.el.inDocument = true → ∀ checked ∈ Input.parseBool value,
      s.el.specialData ≠ .none ∧
      ∀ c,s.el.specialData = .checkboxInput c → s.el.dirtyChecked = true → checked = c)
  | .removeCheckedAttr =>
    s.el.checkable = false → s.el.dirtyChecked = false → s.el.otherChecked ≠ some true
  | .reset => s.el.checkable = false → s.el.otherChecked ≠ some (!s.el.hasChecked)
  | _ => True

instance (action : Action) : Decidable (s.Allowed action) := by
  cases action <;> unfold Allowed <;> infer_instance

structure Invariant (s : Tracked) : Prop where
  present : s.el.checkedAttrs = if s.present then 1 else 0
  dirty : s.el.dirtyChecked = s.last.isSome
  box : ∀ c,s.el.specialData = .checkboxInput c → s.el.checkable = true ∧ c = s.expected
  boxed : s.el.checkable = true → s.el.dirtyChecked = true → s.el.checkboxInputChecked ≠ none
  other : ∀ b,s.el.otherChecked = some b → s.el.checkable = false ∧ b = s.expected
  kept : s.el.checkable = false → s.el.dirtyChecked = true → s.el.otherChecked ≠ none

theorem new_invariant (type : Option String) (checked inDocument : Bool) :
    Invariant (new type checked inDocument) where
  present := rfl
  dirty := rfl
  box := by
    rintro c ⟨⟩
  boxed := fun _ dirty => absurd dirty Bool.false_ne_true
  other := by
    rintro b ⟨⟩
  kept := fun _ dirty => absurd dirty Bool.false_ne_true

variable {s}

theorem Invariant.hasChecked (invariant : Invariant s) : s.el.hasChecked = s.present := by
  rw [Input.hasChecked,invariant.present]
  cases s.present <;> decide

theorem Invariant.agrees (invariant : Invariant s) : s.Agrees := by
  have present := invariant.hasChecked
  have clean : s.el.dirtyChecked = false → s.expected = s.present := by
    rw [invariant.dirty,expected]
    cases s.last <;> simp
  rw [Agrees,Input.getChecked]
  split
  · rename_i checkable
    split
    · rename_i b is
      rw [Input.checkboxInputChecked] at is
      split at is
      · rename_i c special
        cases is
        exact (invariant.box b special).2
      · cases is
    · rename_i none
      cases dirty : s.el.dirtyChecked with
      | true => exact absurd none (invariant.boxed checkable dirty)
      | false => simp [clean dirty,present]
  · rename_i other
    rw [Bool.not_eq_true] at other
    cases known : s.el.otherChecked with
    | some b => exact (invariant.other b known).2
    | none =>
      cases dirty : s.el.dirtyChecked with
      | true => exact absurd known (invariant.kept other dirty)
      | false => simp [clean dirty,present]

theorem Invariant.last_of_clean (invariant : Invariant s) (clean : s.el.dirtyChecked = false) :
    s.last = none := by
  rw [invariant.dirty] at clean
  exact Option.isNone_iff_eq_none.mp (Option.isSome_eq_false_iff.mp clean)

theorem Invariant.clean (invariant : Invariant s) (clean : s.el.dirtyChecked = false) :
    s.expected = s.present := by
  rw [expected,invariant.last_of_clean clean,Option.getD_none]

theorem Invariant.beside (invariant : Invariant s) (unboxed : s.el.checkboxInputChecked = none) :
    s.el.otherChecked.getD s.el.hasChecked = s.expected := by
  cases known : s.el.otherChecked with
  | some b => exact (invariant.other b known).2
  | none =>
    have clean : s.el.dirtyChecked = false := by
      cases checkable : s.el.checkable with
      | true => exact Bool.eq_false_iff.mpr fun dirty => invariant.boxed checkable dirty unboxed
      | false => exact Bool.eq_false_iff.mpr fun dirty => invariant.kept checkable dirty known
    rw [Option.getD_none,invariant.hasChecked,invariant.clean clean]

theorem checkboxInputChecked_eq_some {el : Input} {c : Bool} :
    el.checkboxInputChecked = some c ↔ el.specialData = .checkboxInput c := by
  unfold Input.checkboxInputChecked
  cases el.specialData <;> simp

theorem writeCheckboxState_same (el : Input) {c : Bool} (special : el.specialData = .checkboxInput c) :
    el.writeCheckboxState c = { el with checkedState := c } := by
  rw [Input.writeCheckboxState,← special]

theorem checkedChanged_write (el : Input) (checkable : el.checkable = true)
    (clean : el.dirtyChecked = false) (before set : Bool) :
    (el.writeCheckboxState before).checkedChanged set = el.checkedChanged set := by
  have alsoCheckable : (el.writeCheckboxState before).checkable = true := checkable
  have alsoClean : (el.writeCheckboxState before).dirtyChecked = false := clean
  rw [Input.checkedChanged,Input.checkedChanged,checkable,clean,alsoCheckable,alsoClean]
  rfl

theorem boxed_invariant (el : Input) {present : Bool} {last : Option Bool}
    (attrs : el.checkedAttrs = if present then 1 else 0) (dirty : el.dirtyChecked = last.isSome)
    (checkable : el.checkable = true) (other : el.otherChecked = none) {c : Bool}
    (is : c = last.getD present) : Invariant ⟨el.writeCheckboxState c,present,last⟩ where
  present := attrs
  dirty := dirty
  box := by
    rintro _ ⟨⟩
    exact ⟨checkable,is⟩
  boxed := by
    rintro - - ⟨⟩
  other := by
    intro b known
    cases other.symm.trans known
  kept := fun uncheckable => absurd checkable (Bool.eq_false_iff.mp uncheckable)

theorem setType_invariant (invariant : Invariant s) (type : Option String) :
    Invariant { s with el := s.el.setType type } := by
  unfold Input.setType
  split
  · exact invariant
  unfold Input.typeChanged
  split
  · rename_i checkable none
    exact boxed_invariant { s.el with type,otherChecked := .none } invariant.present
      invariant.dirty checkable rfl (invariant.beside none)
  · rename_i c uncheckable is
    have boxed := invariant.box c (checkboxInputChecked_eq_some.mp is)
    refine ⟨invariant.present,invariant.dirty,?_,?_,?_,?_⟩
    · rintro c ⟨⟩
    · exact fun checkable => absurd checkable (Bool.eq_false_iff.mp uncheckable)
    · rintro b ⟨⟩
      exact ⟨uncheckable,boxed.2⟩
    · rintro - - ⟨⟩
  · rename_i neither notBoth
    cases checkable : ({ s.el with type } : Input).checkable with
    | true =>
      cases is : s.el.checkboxInputChecked with
      | none => exact absurd is (neither checkable)
      | some c =>
        have special := checkboxInputChecked_eq_some.mp is
        have boxed := invariant.box c special
        refine ⟨invariant.present,invariant.dirty,?_,?_,?_,?_⟩
        · intro c' special'
          cases special.symm.trans special'
          exact ⟨checkable,boxed.2⟩
        · exact fun _ _ none => Option.some_ne_none c (is.symm.trans none)
        · intro b known
          exact absurd boxed.1 (Bool.eq_false_iff.mp (invariant.other b known).1)
        · exact fun uncheckable => absurd checkable (Bool.eq_false_iff.mp uncheckable)
    | false =>
      have unboxed : s.el.checkboxInputChecked = none := by
        cases is : s.el.checkboxInputChecked with
        | none => rfl
        | some c => exact absurd is (notBoth c checkable)
      refine ⟨invariant.present,invariant.dirty,?_,?_,?_,?_⟩
      · intro c special
        cases unboxed.symm.trans (checkboxInputChecked_eq_some.mpr special)
      · exact fun wrong => absurd wrong (Bool.eq_false_iff.mp checkable)
      · exact fun b known => ⟨checkable,(invariant.other b known).2⟩
      · intro _ dirty none
        cases before : s.el.checkable with
        | true => exact invariant.boxed before dirty unboxed
        | false => exact invariant.kept before dirty none

theorem check_invariant (invariant : Invariant s) (checked : Bool) :
    Invariant { s with el := s.el.setChecked checked,last := some checked } := by
  unfold Input.setChecked
  cases checkable : s.el.checkable with
  | true =>
    have none : s.el.otherChecked = .none := by
      cases known : s.el.otherChecked with
      | none => rfl
      | some b => exact absurd checkable (Bool.eq_false_iff.mp (invariant.other b known).1)
    exact boxed_invariant { s.el with dirtyChecked := true } invariant.present rfl checkable none rfl
  | false =>
    refine ⟨invariant.present,rfl,?_,?_,?_,?_⟩
    · exact fun c special => absurd (invariant.box c special).1 (Bool.eq_false_iff.mp checkable)
    · exact fun wrong => absurd wrong (Bool.eq_false_iff.mp checkable)
    · rintro b ⟨⟩
      exact ⟨checkable,rfl⟩
    · rintro - - ⟨⟩

theorem checkedChanged_invariant (invariant : Invariant s) (set : Bool)
    (kept : s.el.checkable = false → s.el.dirtyChecked = false → s.el.otherChecked ≠ some (!set)) :
    Invariant { s with
      el := { s.el with checkedAttrs := if set then 1 else 0 }.checkedChanged set,present := set } := by
  unfold Input.checkedChanged
  have same : ({ s.el with checkedAttrs := if set then 1 else 0 } : Input).checkable = s.el.checkable := rfl
  rw [same]
  cases checkable : s.el.checkable with
  | true =>
    have none : s.el.otherChecked = .none := by
      cases known : s.el.otherChecked with
      | none => rfl
      | some b => exact absurd checkable (Bool.eq_false_iff.mp (invariant.other b known).1)
    cases dirty : s.el.dirtyChecked with
    | false =>
      exact boxed_invariant { s.el with checkedAttrs := if set then 1 else 0 } rfl invariant.dirty
        checkable none (by rw [invariant.last_of_clean dirty,Option.getD_none])
    | true =>
      have known : s.last.isSome := invariant.dirty.symm.trans dirty
      obtain ⟨b,last⟩ := Option.isSome_iff_exists.mp known
      refine ⟨rfl,invariant.dirty,?_,invariant.boxed,?_,invariant.kept⟩
      · intro c special
        have before := invariant.box c special
        rw [expected,last,Option.getD_some] at before
        rw [expected,last,Option.getD_some]
        exact before
      · intro b known
        cases none.symm.trans known
  | false =>
    refine ⟨rfl,invariant.dirty,?_,invariant.boxed,?_,invariant.kept⟩
    · exact fun c special => absurd (invariant.box c special).1 (Bool.eq_false_iff.mp checkable)
    · intro b known
      change s.el.otherChecked = some b at known
      have before := (invariant.other b known).2
      refine ⟨checkable,?_⟩
      cases last : s.last with
      | some l =>
        rw [expected,last] at before
        exact before
      | none =>
        have clean : s.el.dirtyChecked = false := by
          rw [invariant.dirty,last]
          rfl
        have differs := kept checkable clean
        rw [known] at differs
        change b = set
        cases b <;> cases set <;> simp_all

theorem setCheckedAttr_invariant (invariant : Invariant s) {value : String}
    (allowed : s.Allowed (.setCheckedAttr value)) :
    Invariant { s with el := s.el.setCheckedAttr value,present := true } := by
  obtain ⟨kept,reads⟩ := allowed
  have attrs : max s.el.checkedAttrs 1 = 1 := by
    rw [invariant.present]
    split <;> rfl
  have plain := checkedChanged_invariant invariant true kept
  unfold Input.setCheckedAttr
  rw [attrs]
  dsimp only
  split
  · rename_i inside
    have reads := reads inside
    unfold Input.setInputCheckedState
    split
    · exact plain
    rename_i checked value
    obtain ⟨made,same⟩ := reads checked value
    split
    · rename_i c special
      have boxed := invariant.box c special
      by_cases dirty : s.el.dirtyChecked = true
      · cases same c special dirty
        have moved : Invariant { s with el := { s.el with checkedState := checked } } :=
          { invariant with }
        have unwritten := writeCheckboxState_same { s.el with checkedAttrs := 1 } special
        exact (congrArg (fun el : Input => Invariant ⟨el.checkedChanged true,true,s.last⟩) unwritten).mpr
          (checkedChanged_invariant moved true kept)
      · have isOver := checkedChanged_write { s.el with checkedAttrs := 1 } boxed.1
          (Bool.eq_false_iff.mpr dirty) checked true
        exact (congrArg (fun el => Invariant ⟨el,true,s.last⟩) isOver).mpr plain
    · rename_i special
      exact absurd special made
    · exact plain
  · exact plain

theorem removeCheckedAttr_invariant (invariant : Invariant s) (allowed : s.Allowed .removeCheckedAttr) :
    Invariant { s with el := s.el.removeCheckedAttr,present := false } := by
  unfold Input.removeCheckedAttr
  split
  · rename_i none
    have absent : s.present = false := by
      have attrs := invariant.present
      rw [none] at attrs
      cases is : s.present with
      | true => simp [is] at attrs
      | false => rfl
    rw [← absent]
    exact invariant
  · have last : s.el.checkedAttrs - 1 = 0 := by
      have attrs := invariant.present
      split at attrs <;> omega
    rw [last]
    exact checkedChanged_invariant invariant false allowed

theorem reset_invariant (invariant : Invariant s) (allowed : s.Allowed .reset) :
    Invariant { s with el := s.el.reset,last := none } := by
  have present := invariant.hasChecked
  unfold Input.reset
  dsimp only
  split
  · rename_i mode
    have checkable : s.el.checkable = true := checkable_of_valueMode mode
    have none : s.el.otherChecked = .none := by
      cases known : s.el.otherChecked with
      | none => rfl
      | some b => exact absurd checkable (Bool.eq_false_iff.mp (invariant.other b known).1)
    exact boxed_invariant { s.el with dirtyChecked := false } invariant.present rfl checkable none present
  · rename_i mode
    have uncheckable : s.el.checkable = false := by
      cases checkable : isCheckable s.el.type with
      | none => simp [Input.checkable,checkable]
      | some radio => exact absurd (valueMode_checkable checkable) mode
    refine ⟨invariant.present,rfl,?_,?_,?_,?_⟩
    · exact fun c special => absurd (invariant.box c special).1 (Bool.eq_false_iff.mp uncheckable)
    · exact fun _ dirty => absurd dirty Bool.false_ne_true
    · intro b known
      change s.el.otherChecked = some b at known
      refine ⟨uncheckable,?_⟩
      have differs := allowed uncheckable
      rw [known,present] at differs
      change b = s.present
      cases b <;> cases is : s.present <;> simp_all
    · exact fun _ dirty => absurd dirty Bool.false_ne_true

theorem textType_uncheckable {type : Option String}
    (plain : type = none ∨ type ∈ ["text","password","email","number","search","tel","url"].map some) :
    isCheckable type = none := by
  simp only [List.map_cons,List.map_nil,List.mem_cons,List.not_mem_nil,or_false] at plain
  rcases plain with rfl | rfl | rfl | rfl | rfl | rfl | rfl | rfl <;> rfl

theorem boxType_checkable {type : Option String} (boxed : type = some "checkbox" ∨ type = some "radio") :
    (isCheckable type).isSome = true := by
  rcases boxed with rfl | rfl <;> rfl

theorem textInput_invariant (invariant : Invariant s) (uncheckable : s.el.checkable = false) :
    Invariant { s with el := { s.el with specialData := .textInput } } := by
  refine ⟨invariant.present,invariant.dirty,?_,?_,invariant.other,invariant.kept⟩
  · rintro c ⟨⟩
  · exact fun checkable => absurd checkable (Bool.eq_false_iff.mp uncheckable)

theorem layout_invariant (invariant : Invariant s) : Invariant { s with el := s.el.layout } := by
  unfold Input.layout
  split
  · exact invariant
  split
  · rename_i plain
    exact textInput_invariant invariant (by rw [Input.checkable,textType_uncheckable plain]; rfl)
  split
  · rename_i boxed
    have checkable : s.el.checkable = true := boxType_checkable boxed
    split
    · exact invariant
    · rename_i unboxed
      have none : s.el.checkboxInputChecked = none := by
        cases is : s.el.checkboxInputChecked with
        | none => rfl
        | some c => exact absurd (checkboxInputChecked_eq_some.mp is) (unboxed c)
      have other : s.el.otherChecked = .none := by
        cases known : s.el.otherChecked with
        | none => rfl
        | some b => exact absurd checkable (Bool.eq_false_iff.mp (invariant.other b known).1)
      have beside := invariant.beside none
      rw [other,Option.getD_none] at beside
      exact boxed_invariant s.el invariant.present invariant.dirty checkable other beside
  · exact invariant

theorem edit_invariant (invariant : Invariant s) : Invariant { s with el := s.el.edit } := by
  unfold Input.edit
  split
  · rename_i mode
    refine textInput_invariant invariant ?_
    cases checkable : isCheckable s.el.type with
    | none => simp [Input.checkable,checkable]
    | some radio => cases (valueMode_checkable checkable).symm.trans mode
  · exact invariant

theorem step_invariant (invariant : Invariant s) {action : Action} (allowed : s.Allowed action)
    {next : Tracked} (taken : s.step action = some next) : Invariant next := by
  cases action with
  | setType type =>
    rw [← Option.some.inj taken]
    exact setType_invariant invariant type
  | setCheckedAttr value =>
    rw [← Option.some.inj taken]
    exact setCheckedAttr_invariant invariant allowed
  | removeCheckedAttr =>
    rw [← Option.some.inj taken]
    exact removeCheckedAttr_invariant invariant allowed
  | check checked =>
    rw [← Option.some.inj taken]
    exact check_invariant invariant checked
  | reset =>
    rw [← Option.some.inj taken]
    exact reset_invariant invariant allowed
  | layout =>
    rw [← Option.some.inj taken]
    exact layout_invariant invariant
  | edit =>
    rw [← Option.some.inj taken]
    exact edit_invariant invariant
  | connect inDocument =>
    rw [← Option.some.inj taken]
    exact { invariant with }

/-- Where no operation meets what is kept beside the element, the type makes no difference. -/
theorem agrees_of_allowed (type : Option String) (checked inDocument : Bool) (actions : List Action)
    (allowed : Runs.Guarded step Allowed (new type checked inDocument) actions) :
    Runs.Always step Agrees (new type checked inDocument) actions :=
  Runs.always_of_guarded step
    (fun _ _ _ invariant allowed taken => step_invariant invariant allowed taken)
    (fun _ invariant => invariant.agrees) (new_invariant type checked inDocument) allowed

/-- A checkbox that a script has unchecked while it was something else. -/
theorem unchecked_as_text_agrees : Runs.Always step Agrees (new (some "checkbox") true false)
    [.setType (some "text"),.check false,.setType (some "checkbox"),.setCheckedAttr "checked",.reset] :=
  agrees_of_allowed _ _ _ _ (by decide)

/-- The attribute is taken away while the box that it has filled is beside the element. -/
theorem attribute_left_behind :
    ¬∀ type checked inDocument actions,Runs.Always step Agrees (new type checked inDocument) actions := by
  intro promise
  have always := promise (some "checkbox") false false
    [.setCheckedAttr "checked",.setType (some "text"),.removeCheckedAttr]
  have agrees := Runs.always_final step always rfl
  revert agrees
  decide

end Tracked

end Sharko.Forms
