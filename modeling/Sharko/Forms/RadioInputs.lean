import Sharko.Forms.Radios

/-! What each operation on an input does to its checkedness, whatever has been done before. -/

namespace Sharko.Forms.Input

/-- A box belongs to a control that can be checked, one that is dirty has it, and nothing is kept
beside it. -/
structure Sound (el : Input) : Prop where
  box : ∀ c,el.specialData = .checkboxInput c → el.checkable = true
  boxed : el.checkable = true → el.dirtyChecked = true → el.checkboxInputChecked ≠ none
  other : el.checkable = true → el.otherChecked = none

variable {el : Input}

theorem checkbox_eq_some {c : Bool} : el.checkboxInputChecked = some c ↔ el.specialData = .checkboxInput c := by
  unfold checkboxInputChecked
  cases el.specialData <;> simp

theorem getChecked_of_box {c : Bool} (checkable : el.checkable = true)
    (is : el.specialData = .checkboxInput c) : el.getChecked = c := by
  rw [getChecked,if_pos checkable,checkbox_eq_some.mpr is]

theorem Sound.getChecked_unboxed (sound : el.Sound) (checkable : el.checkable = true)
    (unboxed : el.checkboxInputChecked = none) : el.getChecked = el.hasChecked := by
  have clean : ¬el.dirtyChecked = true := fun dirty => sound.boxed checkable dirty unboxed
  rw [getChecked,if_pos checkable,unboxed]
  exact if_neg clean

section write

variable {c : Bool}

@[simp] theorem write_type : (el.writeCheckboxState c).type = el.type := rfl

@[simp] theorem write_checkable : (el.writeCheckboxState c).checkable = el.checkable := rfl

@[simp] theorem write_dirty : (el.writeCheckboxState c).dirtyChecked = el.dirtyChecked := rfl

theorem write_getChecked (checkable : el.checkable = true) : (el.writeCheckboxState c).getChecked = c :=
  getChecked_of_box checkable rfl

theorem write_sound (checkable : el.checkable = true) (other : el.otherChecked = none) :
    (el.writeCheckboxState c).Sound where
  box := fun _ _ => checkable
  boxed := by
    rintro - - ⟨⟩
  other := fun _ => other

end write

theorem new_sound (type : Option String) (checked inDocument : Bool) :
    (Input.new type checked inDocument).Sound where
  box := by
    rintro c ⟨⟩
  boxed := fun _ dirty => absurd dirty Bool.false_ne_true
  other := fun _ => rfl

theorem setChecked_sound (sound : el.Sound) (checked : Bool) : (el.setChecked checked).Sound := by
  unfold setChecked
  split
  · rename_i checkable
    exact @write_sound { el with dirtyChecked := true } checked checkable (sound.other checkable)
  · rename_i uncheckable
    refine ⟨sound.box,?_,?_⟩ <;> exact fun checkable => absurd checkable uncheckable

theorem setChecked_getChecked (checkable : el.checkable = true) (checked : Bool) :
    (el.setChecked checked).getChecked = checked := by
  rw [setChecked,if_pos checkable]
  exact getChecked_of_box checkable rfl

theorem typeChanged_sound (box : ∀ c,el.specialData = .checkboxInput c → el.otherChecked = none)
    : el.typeChanged.Sound := by
  unfold typeChanged
  split
  · rename_i checkable unboxed
    exact write_sound checkable rfl
  · rename_i c uncheckable is
    refine ⟨?_,?_,?_⟩
    · rintro c ⟨⟩
    · exact fun checkable => absurd checkable (Bool.eq_false_iff.mp uncheckable)
    · exact fun checkable => absurd checkable (Bool.eq_false_iff.mp uncheckable)
  · rename_i neither notBoth
    cases checkable : el.checkable with
    | true =>
      cases is : el.checkboxInputChecked with
      | none => exact absurd is (neither checkable)
      | some c =>
        refine ⟨fun _ _ => checkable,fun _ _ => ?_,fun _ => box c (checkbox_eq_some.mp is)⟩
        rw [is]
        exact Option.some_ne_none c
    | false =>
      refine ⟨?_,?_,?_⟩
      · exact fun c is => absurd (checkbox_eq_some.mpr is) (notBoth c checkable)
      · exact fun wrong => absurd wrong (Bool.eq_false_iff.mp checkable)
      · exact fun wrong => absurd wrong (Bool.eq_false_iff.mp checkable)

theorem setType_sound (sound : el.Sound) (type : Option String) : (el.setType type).Sound := by
  unfold setType
  split
  · exact sound
  · exact @typeChanged_sound { el with type } fun c is => sound.other (sound.box c is)

def kept (el : Input) : Bool := el.checkboxInputChecked.getD (el.otherChecked.getD el.hasChecked)

theorem Sound.getChecked_eq_kept (sound : el.Sound) : el.getChecked = el.kept := by
  cases is : el.checkboxInputChecked with
  | some c =>
    have special := checkbox_eq_some.mp is
    rw [kept,is,getChecked_of_box (sound.box c special) special,Option.getD_some]
  | none =>
    rw [kept,is,Option.getD_none]
    cases before : el.checkable with
    | true => rw [sound.getChecked_unboxed before is,sound.other before,Option.getD_none]
    | false => rw [getChecked,if_neg (Bool.eq_false_iff.mp before)]

theorem typeChanged_checkable : el.typeChanged.checkable = el.checkable := by
  unfold typeChanged
  split <;> rfl

theorem typeChanged_getChecked (checkable : el.checkable = true) : el.typeChanged.getChecked = el.kept := by
  unfold typeChanged kept
  rw [checkable]
  cases is : el.checkboxInputChecked with
  | some c => exact getChecked_of_box checkable (checkbox_eq_some.mp is)
  | none => exact getChecked_of_box checkable rfl

theorem setType_getChecked (sound : el.Sound) {type : Option String}
    (checkable : (el.setType type).checkable = true) : (el.setType type).getChecked = el.getChecked := by
  unfold setType at checkable ⊢
  split
  · rfl
  rename_i changed
  rw [if_neg changed,typeChanged_checkable] at checkable
  rw [typeChanged_getChecked checkable,sound.getChecked_eq_kept]
  rfl

theorem checkedChanged_sound (sound : el.Sound) (set : Bool) : (el.checkedChanged set).Sound := by
  unfold checkedChanged
  split
  · rename_i changes
    have checkable : el.checkable = true := (Bool.and_eq_true_iff.mp changes).1
    exact write_sound checkable (sound.other checkable)
  · exact sound

theorem setInputCheckedState_sound (sound : el.Sound) (value : String) :
    (el.setInputCheckedState value).Sound := by
  unfold setInputCheckedState
  split
  · exact sound
  split
  · rename_i c is
    exact write_sound (sound.box c is) (sound.other (sound.box c is))
  · exact { sound with }
  · exact sound

theorem setCheckedAttr_sound (sound : el.Sound) (value : String) : (el.setCheckedAttr value).Sound := by
  have more : ({ el with checkedAttrs := max el.checkedAttrs 1 } : Input).Sound := { sound with }
  unfold setCheckedAttr
  dsimp only
  split
  · exact checkedChanged_sound (setInputCheckedState_sound more value) true
  · exact checkedChanged_sound more true

theorem removeCheckedAttr_sound (sound : el.Sound) : el.removeCheckedAttr.Sound := by
  have fewer : ({ el with checkedAttrs := el.checkedAttrs - 1 } : Input).Sound := { sound with }
  unfold removeCheckedAttr
  split
  · exact sound
  · exact checkedChanged_sound fewer false

theorem reset_sound (sound : el.Sound) : el.reset.Sound := by
  unfold reset
  dsimp only
  split
  · rename_i mode
    have checkable : el.checkable = true := checkable_of_valueMode mode
    exact write_sound checkable (sound.other checkable)
  · exact ⟨sound.box,fun _ dirty => absurd dirty Bool.false_ne_true,sound.other⟩

theorem textInput_sound (sound : el.Sound) (uncheckable : el.checkable = false) :
    ({ el with specialData := .textInput } : Input).Sound := by
  refine ⟨?_,?_,sound.other⟩
  · rintro c ⟨⟩
  · exact fun checkable => absurd checkable (Bool.eq_false_iff.mp uncheckable)

theorem layout_sound (sound : el.Sound) : el.layout.Sound := by
  unfold layout
  split
  · exact sound
  split
  · rename_i plain
    exact textInput_sound sound (by rw [checkable,Tracked.textType_uncheckable plain]; rfl)
  split
  · rename_i boxed
    have checkable : el.checkable = true := Tracked.boxType_checkable boxed
    split
    · exact sound
    · exact write_sound checkable (sound.other checkable)
  · exact sound

theorem edit_sound (sound : el.Sound) : el.edit.Sound := by
  unfold edit
  split
  · rename_i mode
    refine textInput_sound sound ?_
    cases checkable : isCheckable el.type with
    | none => simp [Input.checkable,checkable]
    | some radio => cases (valueMode_checkable checkable).symm.trans mode
  · exact sound

theorem checkedChanged_dirty (dirty : el.dirtyChecked = true) (set : Bool) : el.checkedChanged set = el := by
  rw [checkedChanged,dirty,Bool.not_true,Bool.and_false]
  rfl

theorem setInputCheckedState_cases (el : Input) {c : Bool} (special : el.specialData = .checkboxInput c) (value : String) :
    el.setInputCheckedState value = el ∨ el.setInputCheckedState value = el.writeCheckboxState false ∨
      value = "true" ∧ el.setInputCheckedState value = el.writeCheckboxState true := by
  unfold setInputCheckedState parseBool
  rw [special]
  by_cases yes : value = "true"
  · exact .inr (.inr ⟨yes,by rw [if_pos yes]⟩)
  by_cases no : value = "false"
  · exact .inr (.inl (by rw [if_neg yes,if_pos no]))
  · exact .inl (by rw [if_neg yes,if_neg no])

theorem attrs_getChecked {c : Bool} (checkable : el.checkable = true)
    (special : el.specialData = .checkboxInput c) (n : ℕ) :
    ({ el with checkedAttrs := n } : Input).getChecked = el.getChecked := by
  rw [getChecked_of_box checkable special]
  exact getChecked_of_box checkable special

theorem setCheckedAttr_dirty (sound : el.Sound) (checkable : el.checkable = true)
    (dirty : el.dirtyChecked = true) {value : String} (checked : (el.setCheckedAttr value).getChecked = true) :
    el.getChecked = true ∨ el.inDocument = true ∧ value = "true" := by
  obtain ⟨c,is⟩ := Option.ne_none_iff_exists'.mp (sound.boxed checkable dirty)
  have special := checkbox_eq_some.mp is
  have same := attrs_getChecked checkable special (max el.checkedAttrs 1)
  unfold setCheckedAttr at checked
  dsimp only at checked
  split at checked
  · rename_i inside
    rcases setInputCheckedState_cases { el with checkedAttrs := max el.checkedAttrs 1 } special value with whole | off | ⟨word,-⟩
    · rw [whole,checkedChanged_dirty (by exact dirty),same] at checked
      exact .inl checked
    · rw [off,checkedChanged_dirty (by exact dirty),write_getChecked (by exact checkable)] at checked
      cases checked
    · exact .inr ⟨inside,word⟩
  · rw [checkedChanged_dirty (by exact dirty),same] at checked
    exact .inl checked

theorem removeCheckedAttr_getChecked (sound : el.Sound) (checkable : el.checkable = true)
    (checked : el.removeCheckedAttr.getChecked = true) : el.getChecked = true := by
  unfold removeCheckedAttr at checked
  split at checked
  · exact checked
  cases dirty : el.dirtyChecked with
  | true =>
    obtain ⟨c,is⟩ := Option.ne_none_iff_exists'.mp (sound.boxed checkable dirty)
    have special := checkbox_eq_some.mp is
    have same := attrs_getChecked checkable special (el.checkedAttrs - 1)
    rw [checkedChanged_dirty (by exact dirty),same] at checked
    exact checked
  | false =>
    unfold checkedChanged at checked
    rw [if_pos,write_getChecked (by exact checkable)] at checked
    · cases checked
    · change (el.checkable && !el.dirtyChecked) = true
      rw [checkable,dirty]
      rfl

theorem layout_getChecked (sound : el.Sound) (checkable : el.checkable = true) :
    el.layout.getChecked = el.getChecked := by
  unfold layout
  split
  · rfl
  split
  · rename_i plain
    have uncheckable : el.checkable = false := by
      rw [Input.checkable,Tracked.textType_uncheckable plain]
      rfl
    exact absurd checkable (Bool.eq_false_iff.mp uncheckable)
  split
  · split
    · rfl
    · rename_i unboxed
      have none : el.checkboxInputChecked = none := by
        cases is : el.checkboxInputChecked with
        | none => rfl
        | some c => exact absurd (checkbox_eq_some.mp is) (unboxed c)
      rw [write_getChecked checkable,sound.getChecked_unboxed checkable none]
  · rfl

theorem edit_getChecked (checkable : el.checkable = true) : el.edit.getChecked = el.getChecked := by
  unfold edit
  split
  · rename_i mode
    cases is : isCheckable el.type with
    | none =>
      rw [Input.checkable,is] at checkable
      cases checkable
    | some radio => cases (valueMode_checkable is).symm.trans mode
  · rfl

theorem reset_getChecked (checkable : el.checkable = true) : el.reset.getChecked = el.hasChecked := by
  obtain ⟨radio,is⟩ := Option.isSome_iff_exists.mp checkable
  unfold reset
  dsimp only
  rw [valueMode_checkable is]
  exact getChecked_of_box checkable rfl

theorem reset_reset : el.reset.reset = el.reset := by
  unfold reset
  dsimp only
  cases mode : valueMode (inputType el.type) with
  | defaultOn =>
    simp only [mode,writeCheckboxState]
    rfl
  | _ => simp only [mode]

theorem setChecked_type (el : Input) (checked : Bool) : (el.setChecked checked).type = el.type := by
  unfold setChecked
  split <;> rfl

theorem checkedChanged_type (set : Bool) : (el.checkedChanged set).type = el.type := by
  unfold checkedChanged
  split <;> rfl

theorem checkedChanged_dirtyChecked (set : Bool) : (el.checkedChanged set).dirtyChecked = el.dirtyChecked := by
  unfold checkedChanged
  split <;> rfl

theorem setInputCheckedState_type (value : String) : (el.setInputCheckedState value).type = el.type := by
  unfold setInputCheckedState
  split
  · rfl
  · split <;> rfl

theorem setInputCheckedState_dirtyChecked (value : String) :
    (el.setInputCheckedState value).dirtyChecked = el.dirtyChecked := by
  unfold setInputCheckedState
  split
  · rfl
  · split <;> rfl

theorem setCheckedAttr_type (el : Input) (value : String) : (el.setCheckedAttr value).type = el.type := by
  unfold setCheckedAttr
  dsimp only
  rw [checkedChanged_type]
  split
  · exact setInputCheckedState_type value
  · rfl

theorem setCheckedAttr_dirtyChecked (el : Input) (value : String) :
    (el.setCheckedAttr value).dirtyChecked = el.dirtyChecked := by
  unfold setCheckedAttr
  dsimp only
  rw [checkedChanged_dirtyChecked]
  split
  · exact setInputCheckedState_dirtyChecked value
  · rfl

theorem removeCheckedAttr_type : el.removeCheckedAttr.type = el.type := by
  unfold removeCheckedAttr
  split
  · rfl
  · exact checkedChanged_type false

theorem reset_type : el.reset.type = el.type := by
  unfold reset
  dsimp only
  split <;> rfl

theorem layout_type : el.layout.type = el.type := by
  unfold layout
  split
  · rfl
  split
  · rfl
  split
  · split <;> rfl
  · rfl

theorem edit_type : el.edit.type = el.type := by
  unfold edit
  split <;> rfl

section placed

variable {inDocument : Bool}

@[simp] theorem placed_type : (el.placed inDocument).type = el.type := rfl

@[simp] theorem placed_inDocument : (el.placed inDocument).inDocument = inDocument := rfl

@[simp] theorem placed_dirtyChecked : (el.placed inDocument).dirtyChecked = el.dirtyChecked := rfl

@[simp] theorem placed_checkable : (el.placed inDocument).checkable = el.checkable := rfl

@[simp] theorem placed_getChecked : (el.placed inDocument).getChecked = el.getChecked := rfl

theorem Sound.placed (sound : el.Sound) (inDocument : Bool) : (el.placed inDocument).Sound :=
  ⟨sound.box,sound.boxed,sound.other⟩

end placed

section copy

open Radios

theorem copy_type : (copyCloneState el).type = el.type := by
  unfold copyCloneState
  dsimp only
  split <;> rfl

theorem copy_checkable : (copyCloneState el).checkable = el.checkable := by
  rw [checkable,copy_type,checkable]

theorem copy_sound : (copyCloneState el).Sound := by
  unfold copyCloneState
  dsimp only
  split
  · rename_i condition
    have checkable : el.checkable = true := (Bool.and_eq_true_iff.mp condition).1
    refine ⟨fun _ _ => checkable,?_,fun _ => rfl⟩
    rintro - - ⟨⟩
  · refine ⟨?_,fun _ dirty => absurd dirty Bool.false_ne_true,fun _ => rfl⟩
    rintro c ⟨⟩

theorem copy_getChecked (checkable : el.checkable = true) : (copyCloneState el).getChecked = el.getChecked := by
  unfold copyCloneState
  dsimp only
  split
  · exact getChecked_of_box checkable rfl
  · rename_i condition
    rw [checkable,Bool.true_and,Bool.or_eq_true,not_or] at condition
    have same : el.getChecked = el.hasChecked := by simpa using condition.2
    rw [same,getChecked,if_pos (by exact checkable)]
    rfl

end copy

end Sharko.Forms.Input
