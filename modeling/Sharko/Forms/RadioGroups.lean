import Sharko.Forms.RadioInputs

/-! When at most one radio button of each group stays checked. -/

namespace Sharko.Forms.Radios

open Library

def Element.fixed (el : Element) : Tag × Option String × Option String × Option String × Option String :=
  (el.tag,el.name,el.form,el.idAttr,el.input.type)

@[simp] theorem Element.copy_tag (el : Element) : el.copy.tag = el.tag := by
  simp only [Element.copy]

@[simp] theorem Element.copy_input (el : Element) : el.copy.input = copyCloneState el.input := by
  simp only [Element.copy]

namespace Document

variable {d d' : Document} {o x a b : ℕ}

structure Like (d d' : Document) : Prop where
  forest : d'.forest = d.forest
  root : d'.root = d.root
  fixed : ∀ o,(d'.el o).fixed = (d.el o).fixed

namespace Like

theorem refl (d : Document) : Like d d := ⟨rfl,rfl,fun _ => rfl⟩

theorem trans {d'' : Document} (first : Like d d') (second : Like d' d'') : Like d d'' :=
  ⟨second.forest.trans first.forest,second.root.trans first.root,
    fun o => (second.fixed o).trans (first.fixed o)⟩

variable (like : Like d d')
include like

theorem tag (o : ℕ) : (d'.el o).tag = (d.el o).tag := congrArg (·.1) (like.fixed o)

theorem name (o : ℕ) : (d'.el o).name = (d.el o).name := congrArg (·.2.1) (like.fixed o)

theorem form (o : ℕ) : (d'.el o).form = (d.el o).form := congrArg (·.2.2.1) (like.fixed o)

theorem idAttr (o : ℕ) : (d'.el o).idAttr = (d.el o).idAttr := congrArg (·.2.2.2.1) (like.fixed o)

theorem type (o : ℕ) : (d'.el o).input.type = (d.el o).input.type := congrArg (·.2.2.2.2) (like.fixed o)

theorem isInput : d'.isInput = d.isInput := by
  funext o
  rw [Document.isInput,like.tag,Document.isInput]

theorem isRadio : d'.isRadio = d.isRadio := by
  funext o
  rw [Document.isRadio,like.isInput,like.type,Document.isRadio]

theorem formOwner : d'.formOwner = d.formOwner := by
  funext o
  simp only [Document.formOwner,isConnected,getElementById,like.form,like.forest,like.root,like.idAttr,
    like.tag]
  cases (d.el o).form <;> rfl

theorem subtree : d'.subtree = d.subtree := by
  funext o
  rw [Document.subtree,like.forest,like.isInput,Document.subtree]

theorem radioGroup : d'.radioGroup = d.radioGroup := by
  funext o
  simp only [Document.radioGroup,like.name,like.subtree,like.isRadio,like.formOwner]

theorem together : d'.Together = d.Together := by
  funext a b
  simp only [Together,like.name,like.isRadio,like.formOwner,like.forest]

end Like

theorem modify_el {change : Input → Input} (x : ℕ) :
    (d.modify o change).el x = if x = o then { d.el o with input := change (d.el o).input } else d.el x :=
  Function.update_apply ..

theorem modify_like {change : Input → Input} (same : ∀ el : Input,(change el).type = el.type) :
    Like d (d.modify o change) := by
  refine ⟨rfl,rfl,fun x => ?_⟩
  rw [modify_el]
  split
  · rename_i here
    rw [here,Element.fixed,same,Element.fixed]
  · rfl

theorem foldl_modify_el {change : Input → Input} (again : ∀ el,change (change el) = change el)
    (os : List ℕ) (d : Document) (x : ℕ) : (os.foldl (fun d o => d.modify o change) d).el x =
      if x ∈ os then { d.el x with input := change (d.el x).input } else d.el x := by
  induction os generalizing d with
  | nil => rfl
  | cons o os ih =>
    rw [List.foldl_cons,ih,modify_el]
    by_cases here : x = o
    · subst here
      simp [again]
    · simp [here]

theorem foldl_modify_getChecked {change : Input → Input} (again : ∀ el,change (change el) = change el)
    (os : List ℕ) (d : Document) (x : ℕ) : (os.foldl (fun d o => d.modify o change) d).getChecked x =
      if x ∈ os then (change (d.el x).input).getChecked else d.getChecked x := by
  rw [getChecked,foldl_modify_el again,getChecked]
  split <;> rfl

theorem foldl_modify_like {change : Input → Input} (same : ∀ el : Input,(change el).type = el.type)
    (os : List ℕ) (d : Document) : Like d (os.foldl (fun d o => d.modify o change) d) := by
  induction os generalizing d with
  | nil => exact Like.refl d
  | cons o os ih => exact (modify_like same).trans (ih _)

theorem uncheck_el (os : List ℕ) (x : ℕ) : (d.uncheck os).el x =
      if x ∈ os then { d.el x with input := (d.el x).input.writeCheckboxState false } else d.el x := by
  have again (el : Input) :
      (el.writeCheckboxState false).writeCheckboxState false = el.writeCheckboxState false := rfl
  exact foldl_modify_el again os d x

theorem uncheck_like (os : List ℕ) : Like d (d.uncheck os) := by
  have same (el : Input) : (el.writeCheckboxState false).type = el.type := rfl
  exact foldl_modify_like same os d

theorem isCheckable_radio {attr : Option String} : isCheckable attr = some true ↔ inputType attr = "radio" := by
  unfold isCheckable
  by_cases box : inputType attr = "checkbox"
  · rw [if_pos box,box]
    exact iff_of_false (by decide) (by decide)
  · rw [if_neg box,ite_eq_left_iff]
    constructor
    · intro is
      by_contra other
      exact Option.some_ne_none true (is other).symm
    · exact fun is other => absurd is other

theorem isRadio_iff :
    d.isRadio o = true ↔ d.isInput o = true ∧ isCheckable (d.el o).input.type = some true := by
  rw [isRadio,Bool.and_eq_true_iff,decide_eq_true_iff,isCheckable_radio]

theorem checkable_of_isRadio (radio : d.isRadio o = true) : (d.el o).input.checkable = true := by
  rw [Input.checkable,(isRadio_iff.mp radio).2]
  rfl

theorem together_symm (inside : a ∈ d.forest.nodes) (together : d.Together a b) : d.Together b a := by
  obtain ⟨radioA,radioB,⟨name,isA,nonempty,isB⟩,owner,tree⟩ := together
  refine ⟨radioB,radioA,⟨name,isB,nonempty,isA⟩,owner.symm,?_⟩
  rw [Forest.top_eq d.nodup tree]
  exact Forest.mem_top inside

structure Invariant (d : Document) : Prop where
  leaves : d.forest.Leaves d.isInput
  sound : ∀ o,(d.el o).input.Sound
  exclusive : d.Exclusive

theorem subtree_eq (leaves : d.forest.Leaves d.isInput) (o : ℕ) : d.subtree o = (d.forest.top o).nodes := by
  rw [subtree,Forest.shown_of_leaves (Forest.top_leaves leaves)]

theorem mem_radioGroup (leaves : d.forest.Leaves d.isInput) (radio : d.isRadio o = true) :
    x ∈ d.radioGroup o ↔ x ≠ o ∧ d.Together o x := by
  unfold radioGroup Together
  cases is : (d.el o).name.filter (· ≠ "") with
  | none =>
    have empty : ∀ name ∈ (d.el o).name,¬name ≠ "" := by simpa using is
    constructor
    · intro member
      cases member
    · rintro ⟨-,-,-,⟨name,named,nonempty,-⟩,-⟩
      exact absurd nonempty (empty name named)
  | some name =>
    obtain ⟨named,nonempty⟩ := Option.filter_eq_some_iff.mp is
    have nonempty : name ≠ "" := by simpa using nonempty
    simp only [List.mem_filter,subtree_eq leaves,Bool.and_eq_true,decide_eq_true_eq]
    constructor
    · rintro ⟨tree,⟨⟨other,radioX⟩,same⟩,owner⟩
      exact ⟨other,radio,radioX,⟨name,named,nonempty,same⟩,owner.symm,tree⟩
    · rintro ⟨other,-,radioX,⟨name',named',-,same⟩,owner,tree⟩
      cases Option.some.inj (named.symm.trans named')
      exact ⟨tree,⟨⟨other,radioX⟩,same⟩,owner.symm⟩

theorem exclusive_of_one (like : Like d d') (exclusive : d.Exclusive)
    (kept : ∀ x,d.isRadio x = true → x ≠ o → d'.getChecked x = true → d.getChecked x = true)
    (alone : ∀ x ∈ d.forest.nodes,x ≠ o → d.Together o x →
      d'.getChecked o = true → d'.getChecked x = false) : d'.Exclusive := by
  unfold Exclusive
  rw [like.forest,like.together]
  intro a insideA b insideB together checkedA checkedB
  by_contra other
  by_cases isA : a = o
  · subst isA
    exact Bool.false_ne_true ((alone b insideB (Ne.symm other) together checkedA).symm.trans checkedB)
  by_cases isB : b = o
  · subst isB
    exact Bool.false_ne_true
      ((alone a insideA isA (together_symm insideA together) checkedB).symm.trans checkedA)
  · exact other (exclusive a insideA b insideB together (kept a together.1 isA checkedA)
      (kept b together.2.1 isB checkedB))

/-- No two checked radio buttons come together in a group. -/
def Apart (d d' : Document) : Prop :=
  ∀ a ∈ d.forest.nodes,∀ b ∈ d.forest.nodes,a ≠ b → d.getChecked a = true → d.getChecked b = true →
    d'.Together a b → d.Together a b

theorem exclusive_of_apart (exclusive : d.Exclusive) (apart : d.Apart d')
    (fewer : ∀ x ∈ d'.forest.nodes,x ∈ d.forest.nodes)
    (kept : ∀ x,d'.isRadio x = true → d'.getChecked x = d.getChecked x) : d'.Exclusive := by
  intro a insideA b insideB together checkedA checkedB
  by_contra other
  rw [kept a together.1] at checkedA
  rw [kept b together.2.1] at checkedB
  have before := apart a (fewer a insideA) b (fewer b insideB) other checkedA checkedB together
  exact other (exclusive a (fewer a insideA) b (fewer b insideB) before checkedA checkedB)

section modify

variable {change : Input → Input}

theorem modify_sound (sound : ∀ x,(d.el x).input.Sound)
    (changed : (d.el o).input.Sound → (change (d.el o).input).Sound) (x : ℕ) :
    ((d.modify o change).el x).input.Sound := by
  rw [modify_el]
  split
  · exact changed (sound o)
  · exact sound x

theorem foldl_modify_sound (changed : ∀ el : Input,el.Sound → (change el).Sound) (os : List ℕ)
    {d : Document} (sound : ∀ x,(d.el x).input.Sound) (x : ℕ) :
    ((os.foldl (fun d o => d.modify o change) d).el x).input.Sound := by
  induction os generalizing d with
  | nil => exact sound x
  | cons o os ih => exact ih (modify_sound sound (changed _))

theorem modify_dirtyChecked (same : ∀ el : Input,(change el).dirtyChecked = el.dirtyChecked) :
    (d.modify o change).dirtyChecked = d.dirtyChecked := by
  funext x
  rw [dirtyChecked,modify_el,dirtyChecked]
  split
  · rename_i here
    rw [here,same]
  · rfl

theorem modify_getChecked_of_ne (other : x ≠ o) : (d.modify o change).getChecked x = d.getChecked x := by
  rw [getChecked,modify_el,if_neg other,getChecked]

theorem modify_getChecked_self : (d.modify o change).getChecked o = (change (d.el o).input).getChecked := by
  rw [getChecked,modify_el,if_pos rfl]

end modify

theorem uncheck_getChecked_of_mem {os : List ℕ} (member : x ∈ os) (radio : d.isRadio x = true) :
    (d.uncheck os).getChecked x = false := by
  rw [getChecked,uncheck_el,if_pos member]
  exact Input.write_getChecked (checkable_of_isRadio radio)

theorem uncheck_getChecked_of_not_mem {os : List ℕ} (outside : x ∉ os) :
    (d.uncheck os).getChecked x = d.getChecked x := by
  rw [getChecked,uncheck_el,if_neg outside,getChecked]

theorem uncheck_fewer {os : List ℕ} (radio : d.isRadio x = true)
    (checked : (d.uncheck os).getChecked x = true) : d.getChecked x = true := by
  by_cases member : x ∈ os
  · rw [uncheck_getChecked_of_mem member radio] at checked
    cases checked
  · rwa [uncheck_getChecked_of_not_mem member] at checked

theorem uncheck_sound {os : List ℕ} (sound : ∀ x,(d.el x).input.Sound)
    (radios : ∀ x ∈ os,d.isRadio x = true) (x : ℕ) : ((d.uncheck os).el x).input.Sound := by
  rw [uncheck_el]
  split
  · rename_i member
    have checkable := checkable_of_isRadio (radios x member)
    exact Input.write_sound checkable ((sound x).other checkable)
  · exact sound x

theorem radioGroup_isRadio (member : x ∈ d.radioGroup o) : d.isRadio x = true := by
  unfold radioGroup at member
  split at member
  · cases member
  · simp only [List.mem_filter,Bool.and_eq_true] at member
    exact member.2.1.1.2

theorem Invariant.others_unchecked (inv : Invariant d) (radio : d.isRadio o = true)
    (checked : d.getChecked o = true) (member : x ∈ d.radioGroup o) : d.getChecked x = false := by
  obtain ⟨other,together⟩ := (mem_radioGroup inv.leaves radio).mp member
  have tree := together.2.2.2.2
  by_contra also
  exact other (inv.exclusive o (Forest.mem_of_top tree) x (Forest.top_subset tree) together checked
    (Bool.not_eq_false _ |>.mp also)).symm

theorem Like.leaves (like : Like d d') (leaves : d.forest.Leaves d.isInput) : d'.forest.Leaves d'.isInput := by
  rwa [like.forest,like.isInput]

theorem modify_uncheck_invariant (inv : Invariant d) {change : Input → Input} {os : List ℕ}
    (same : ∀ el : Input,(change el).type = el.type)
    (sound : (d.el o).input.Sound → (change (d.el o).input).Sound) (members : ∀ x ∈ os,x ∈ d.radioGroup o)
    (alone : d.isRadio o = true → (change (d.el o).input).getChecked = true →
      ∀ x ∈ d.radioGroup o,x ∉ os → d.getChecked x = false) : Invariant ((d.modify o change).uncheck os) := by
  have first : Like d (d.modify o change) := modify_like same
  have like := first.trans (uncheck_like os)
  refine ⟨like.leaves inv.leaves,?_,exclusive_of_one (o := o) like inv.exclusive ?_ ?_⟩
  · refine uncheck_sound (modify_sound inv.sound sound) fun x member => ?_
    rw [first.isRadio]
    exact radioGroup_isRadio (members x member)
  · intro x radio other checked
    rw [← first.isRadio] at radio
    have checked := uncheck_fewer radio checked
    rwa [modify_getChecked_of_ne other] at checked
  · intro x inside other together checked
    have radio := together.1
    have member := (mem_radioGroup inv.leaves radio).mpr ⟨other,together⟩
    have radioX := together.2.1
    rw [← first.isRadio] at radio radioX
    have checked := uncheck_fewer radio checked
    rw [modify_getChecked_self] at checked
    by_cases listed : x ∈ os
    · exact uncheck_getChecked_of_mem listed radioX
    · rw [uncheck_getChecked_of_not_mem listed,modify_getChecked_of_ne other]
      exact alone together.1 checked x member listed

theorem modify_invariant (inv : Invariant d) {change : Input → Input}
    (same : ∀ el : Input,(change el).type = el.type)
    (sound : (d.el o).input.Sound → (change (d.el o).input).Sound)
    (alone : d.isRadio o = true → (change (d.el o).input).getChecked = true →
      d.getChecked o = true ∨ ∀ x ∈ d.radioGroup o,d.getChecked x = false) : Invariant (d.modify o change) := by
  refine @modify_uncheck_invariant d o inv change [] same sound (by simp)
    fun radio checked x member _ => ?_
  rcases alone radio checked with before | others
  · exact inv.others_unchecked radio before member
  · exact others x member

theorem setChecked_invariant (inv : Invariant d) (checked : Bool) : Invariant (d.setChecked o checked) := by
  have same (el : Input) := el.setChecked_type checked
  have like : Like d (d.modify o (·.setChecked checked)) := modify_like same
  have sound := fun sound : (d.el o).input.Sound => Input.setChecked_sound sound checked
  unfold setChecked
  split
  · exact inv
  dsimp only
  rw [like.isRadio,like.radioGroup]
  split
  · exact modify_uncheck_invariant inv same sound (fun _ member => member)
      fun _ _ x member outside => absurd member outside
  · rename_i not
    refine modify_invariant inv same sound fun radio after => ?_
    rw [Input.setChecked_getChecked (checkable_of_isRadio radio)] at after
    rw [radio,after] at not
    exact absurd rfl not

theorem setCheckedAttr_invariant (inv : Invariant d) {value : String}
    (clean : d.isRadio o = true → d.dirtyChecked o = false →
      ∀ x ∈ d.radioGroup o,d.dirtyChecked x = true → d.getChecked x = false)
    (dirty : d.isRadio o = true → d.dirtyChecked o = true → d.isConnected o = true → value = "true" →
      ∀ x ∈ d.radioGroup o,d.getChecked x = false) : Invariant (d.setCheckedAttr o value) := by
  let change (el : Input) : Input := (el.placed (d.isConnected o)).setCheckedAttr value
  have same (el : Input) : (change el).type = el.type := (el.placed (d.isConnected o)).setCheckedAttr_type value
  have like : Like d (d.modify o change) := modify_like same
  have sound := fun sound : (d.el o).input.Sound =>
    Input.setCheckedAttr_sound (sound.placed (d.isConnected o)) value
  have dirtiness : (d.modify o change).dirtyChecked = d.dirtyChecked :=
    modify_dirtyChecked fun el => (el.placed (d.isConnected o)).setCheckedAttr_dirtyChecked value
  unfold setCheckedAttr
  split
  · exact inv
  change Invariant (if ((d.modify o change).isRadio o && !(d.modify o change).dirtyChecked o) = true then
    (d.modify o change).uncheck
      (((d.modify o change).radioGroup o).filter fun x => !(d.modify o change).dirtyChecked x)
    else d.modify o change)
  rw [like.isRadio,like.radioGroup,dirtiness]
  split
  · rename_i condition
    rw [Bool.and_eq_true_iff,Bool.not_eq_true'] at condition
    refine modify_uncheck_invariant inv same sound (fun _ member => (List.mem_filter.mp member).1) ?_
    intro radio _ x member outside
    refine clean radio condition.2 x member ?_
    by_contra notDirty
    rw [Bool.not_eq_true] at notDirty
    exact outside (List.mem_filter.mpr ⟨member,by rw [notDirty]; rfl⟩)
  · rename_i condition
    refine modify_invariant inv same sound fun radio after => ?_
    have isDirty : d.dirtyChecked o = true := by
      rw [radio] at condition
      simpa using condition
    rcases Input.setCheckedAttr_dirty ((inv.sound o).placed (d.isConnected o))
        (checkable_of_isRadio radio) isDirty after with before | ⟨inside,word⟩
    · exact .inl before
    · exact .inr (dirty radio isDirty inside word)

theorem removeCheckedAttr_invariant (inv : Invariant d) : Invariant (d.removeCheckedAttr o) := by
  unfold removeCheckedAttr
  split
  · exact inv
  · exact modify_invariant inv (fun _ => Input.removeCheckedAttr_type) Input.removeCheckedAttr_sound
      fun radio after =>
        .inl (Input.removeCheckedAttr_getChecked (inv.sound o) (checkable_of_isRadio radio) after)

theorem layout_invariant (inv : Invariant d) : Invariant (d.layout o) := by
  unfold layout
  dsimp only
  split
  · exact inv
  refine modify_invariant inv (fun _ => Input.layout_type)
    (fun sound => Input.layout_sound (sound.placed _)) fun radio after => .inl ?_
  rwa [Input.layout_getChecked ((inv.sound o).placed (d.isConnected o)) (checkable_of_isRadio radio),
    Input.placed_getChecked] at after

theorem edit_invariant (inv : Invariant d) : Invariant (d.edit o) := by
  unfold edit
  split
  · exact inv
  refine modify_invariant inv (fun _ => Input.edit_type) Input.edit_sound fun radio after => .inl ?_
  rwa [Input.edit_getChecked (checkable_of_isRadio radio)] at after

theorem setType_invariant (inv : Invariant d) {type : Option String} (apart : d.Apart (d.setType o type)) :
    Invariant (d.setType o type) := by
  unfold setType at apart ⊢
  split
  · exact inv
  rename_i isInput
  rw [if_neg isInput] at apart
  refine ⟨?_,modify_sound inv.sound (Input.setType_sound · type),
    exclusive_of_apart inv.exclusive apart (fun _ inside => inside) fun x radio => ?_⟩
  · have inputs : (d.modify o (·.setType type)).isInput = d.isInput := by
      funext x
      rw [Document.isInput,modify_el,Document.isInput]
      split
      · rename_i here
        rw [here]
      · rfl
    rw [inputs]
    exact inv.leaves
  · have checkable := checkable_of_isRadio radio
    rw [modify_el] at checkable
    rw [getChecked,modify_el,getChecked]
    split
    · rename_i here
      rw [if_pos here] at checkable
      rw [here]
      exact Input.setType_getChecked (inv.sound o) checkable
    · rfl

theorem moved_invariant (inv : Invariant d) (leaves : d'.forest.Leaves d.isInput)
    (tags : ∀ x,(d'.el x).tag = (d.el x).tag) (inputs : ∀ x,(d'.el x).input = (d.el x).input)
    (fewer : ∀ x ∈ d'.forest.nodes,x ∈ d.forest.nodes) (apart : d.Apart d') : Invariant d' := by
  refine ⟨?_,fun x => ?_,exclusive_of_apart inv.exclusive apart fewer fun x _ => ?_⟩
  · have same : d'.isInput = d.isInput := by
      funext x
      rw [Document.isInput,tags,Document.isInput]
    rwa [same]
  · rw [inputs]
    exact inv.sound x
  · rw [getChecked,inputs,getChecked]

theorem attr_invariant (inv : Invariant d) {el : Element} (tag : el.tag = (d.el o).tag)
    (input : el.input = (d.el o).input) (apart : d.Apart { d with el := Function.update d.el o el }) :
    Invariant { d with el := Function.update d.el o el } := by
  refine moved_invariant inv inv.leaves (fun x => ?_) (fun x => ?_) (fun _ inside => inside) apart
  · change (Function.update d.el o el x).tag = _
    rw [Function.update_apply]
    split
    · rename_i here
      rw [here,tag]
    · rfl
  · change (Function.update d.el o el x).input = _
    rw [Function.update_apply]
    split
    · rename_i here
      rw [here,input]
    · rfl

theorem remove_invariant (inv : Invariant d) (apart : ∀ d' ∈ d.remove o,d.Apart d')
    (taken : d.remove o = some d') : Invariant d' := by
  have apart := apart d' taken
  unfold remove at taken
  split at taken
  · rename_i inside
    split at taken
    · cases taken
    have same := Option.some.inj taken
    subst same
    refine moved_invariant inv ?_ (fun _ => rfl) (fun _ => rfl) (fun x member => ?_) apart
    · exact Forest.place_leaves (Forest.children_of_leaf inv.leaves) (Forest.children_leaves inv.leaves)
        (Forest.without_leaves inv.leaves) _
    · exact (Forest.without_perm inside).mem_iff.mpr ((Forest.place_perm ..).mem_iff.mp member)
  · cases taken

theorem insert_invariant {parent index : ℕ} (inv : Invariant d) (leaf : d.isInput parent = false)
    (apart : ∀ d' ∈ d.insert o parent index,d.Apart d') (taken : d.insert o parent index = some d') :
    Invariant d' := by
  have apart := apart d' taken
  unfold insert at taken
  split at taken
  · rename_i inside
    dsimp only at taken
    split at taken
    · rename_i there
      split at taken
      · cases taken
      have same := Option.some.inj taken
      subst same
      refine moved_invariant inv ?_ (fun _ => rfl) (fun _ => rfl) (fun x member => ?_) apart
      · exact Forest.insert_leaves (Forest.children_of_leaf inv.leaves)
          (Forest.children_leaves inv.leaves) leaf (Forest.without_leaves inv.leaves) _
      · exact (Forest.without_perm inside).mem_iff.mpr ((Forest.insert_perm _ _ there).mem_iff.mp member)
    · cases taken
  · cases taken

def controls (d : Document) (form : ℕ) : List ℕ :=
  (d.subtree form).filter fun x => d.isInput x && d.formOwner x = some form

theorem resetForm_getChecked (form : ℕ) (radio : d.isRadio x = true) : (d.resetForm form).getChecked x =
      if x ∈ d.controls form then (d.el x).input.hasChecked else d.getChecked x := by
  have defaults := Input.reset_getChecked (checkable_of_isRadio radio)
  rw [resetForm,foldl_modify_getChecked fun _ => Input.reset_reset,defaults]
  rfl

theorem resetForm_invariant {form : ℕ} (inv : Invariant d)
    (defaults : ∀ a ∈ d.controls form,∀ b ∈ d.controls form,d.Together a b →
      (d.el a).input.hasChecked = true → (d.el b).input.hasChecked = true → a = b) :
    Invariant (d.resetForm form) := by
  have like : Like d (d.resetForm form) := foldl_modify_like (fun _ => Input.reset_type) _ d
  refine ⟨like.leaves inv.leaves,
    foldl_modify_sound (fun _ => Input.reset_sound) _ inv.sound,?_⟩
  unfold Exclusive
  rw [like.forest,like.together]
  intro a insideA b insideB together checkedA checkedB
  -- a group is reset as a whole or not at all
  have whole (a b : ℕ) (insideA : a ∈ d.forest.nodes) (together : d.Together a b)
      (member : a ∈ d.controls form) : b ∈ d.controls form := by
    obtain ⟨tree,-,owner⟩ : a ∈ d.subtree form ∧ d.isInput a = true ∧ d.formOwner a = some form := by
      simpa [controls] using member
    obtain ⟨-,radioB,-,sameOwner,sameTree⟩ := together
    rw [subtree_eq inv.leaves] at tree
    have member : b ∈ d.subtree form := by
      rw [subtree_eq inv.leaves,← Forest.top_eq d.nodup tree]
      exact sameTree
    simp [controls,member,(isRadio_iff.mp radioB).1,sameOwner.symm.trans owner]
  rw [resetForm_getChecked form together.1] at checkedA
  rw [resetForm_getChecked form together.2.1] at checkedB
  by_cases reached : a ∈ d.controls form
  · have alsoReached := whole a b insideA together reached
    rw [if_pos reached] at checkedA
    rw [if_pos alsoReached] at checkedB
    exact defaults a reached b alsoReached together checkedA checkedB
  · have notReached : b ∉ d.controls form := fun member =>
      reached (whole b a insideB (together_symm insideA together) member)
    rw [if_neg reached] at checkedA
    rw [if_neg notReached] at checkedB
    exact inv.exclusive a insideA b insideB together checkedA checkedB

structure Copied (d d' : Document) (o : ℕ) (deep : Bool) : Prop where
  root : d'.root = d.root
  forest : d'.forest = d.forest.place (o + d.fresh) d.forest.width
    ((d.descendants o deep).map (· + d.fresh))
  old : ∀ x ∈ d.forest.nodes,d'.el x = d.el x
  new : ∀ x,d'.el (x + d.fresh) = (d.el x).copy
  sound : (∀ x,(d.el x).input.Sound) → ∀ x,(d'.el x).input.Sound

theorem copied_of_cloneNode {deep : Bool} (taken : d.cloneNode o deep = some d') :
    o ∈ d.forest.nodes ∧ Copied d d' o deep := by
  unfold cloneNode at taken
  split at taken
  · rename_i inside
    split at taken
    · cases taken
    have same := Option.some.inj taken
    subst same
    refine ⟨inside,rfl,rfl,fun x member => ?_,fun x => ?_,fun sound x => ?_⟩
    · exact if_neg (Nat.not_le.mpr (d.lt_fresh member))
    · refine (if_pos (Nat.le_add_left ..)).trans ?_
      rw [Nat.add_sub_cancel]
    · change (if d.fresh ≤ x then (d.el (x - d.fresh)).copy else d.el x).input.Sound
      split
      · rw [Element.copy_input]
        exact Input.copy_sound
      · exact sound x
  · cases taken

namespace Copied

variable {deep : Bool} (copied : Copied d d' o deep)
include copied

theorem isInput_new (x : ℕ) : d'.isInput (x + d.fresh) = d.isInput x := by
  rw [Document.isInput,copied.new,Element.copy_tag,Document.isInput]

theorem isInput_old (inside : x ∈ d.forest.nodes) : d'.isInput x = d.isInput x := by
  rw [Document.isInput,copied.old x inside,Document.isInput]

theorem top_old (inside : x ∈ d.forest.nodes) : d'.forest.top x = d.forest.top x := by
  rw [copied.forest,Forest.place_top_of_mem _ inside]

theorem formOwner_old (inside : x ∈ d.forest.nodes) : d'.formOwner x = d.formOwner x := by
  have find (xs : List ℕ) (subset : ∀ y ∈ xs,y ∈ d.forest.nodes) (p : Element → Bool) :
      xs.find? (fun y => p (d'.el y)) = xs.find? fun y => p (d.el y) := by
    rw [← List.head?_filter,← List.head?_filter]
    refine congrArg _ (List.filter_congr fun y member => ?_)
    rw [copied.old y (subset y member)]
  have byId (id : String) : d'.getElementById id = d.getElementById id := by
    rw [getElementById,copied.root,copied.top_old d.rooted]
    exact find _ (fun y => Forest.top_subset) fun el => el.idAttr = some id
  unfold formOwner
  rw [copied.old x inside]
  split
  · rename_i id _
    rw [byId,isConnected,copied.root,copied.top_old d.rooted,isConnected]
    split
    · cases found : d.getElementById id with
      | none => rfl
      | some f =>
        have member := Forest.top_subset (List.mem_of_find?_eq_some found)
        rw [Option.filter_some,Option.filter_some,copied.old f member]
    · rfl
  · rw [copied.forest,Forest.place_ancestors_of_mem _ inside]
    exact find _ (fun y => Forest.ancestors_subset) fun el => el.tag = .form

theorem isRadio_old (inside : x ∈ d.forest.nodes) : d'.isRadio x = d.isRadio x := by
  rw [Document.isRadio,copied.isInput_old inside,copied.old x inside,Document.isRadio]

theorem getChecked_old (inside : x ∈ d.forest.nodes) : d'.getChecked x = d.getChecked x := by
  rw [Document.getChecked,copied.old x inside,Document.getChecked]

theorem isRadio_new : d'.isRadio (x + d.fresh) = d.isRadio x := by
  rw [Document.isRadio,copied.isInput_new,copied.new,Element.copy_input,Input.copy_type,
    Document.isRadio]

theorem getChecked_new (radio : d.isRadio x = true) : d'.getChecked (x + d.fresh) = d.getChecked x := by
  rw [Document.getChecked,copied.new,Element.copy_input,Document.getChecked]
  exact Input.copy_getChecked (checkable_of_isRadio radio)

theorem together_old (insideA : a ∈ d.forest.nodes) (insideB : b ∈ d.forest.nodes)
    (together : d'.Together a b) : d.Together a b := by
  obtain ⟨radioA,radioB,name,owner,tree⟩ := together
  rw [copied.isRadio_old insideA] at radioA
  rw [copied.isRadio_old insideB] at radioB
  rw [copied.old a insideA,copied.old b insideB] at name
  rw [copied.formOwner_old insideA,copied.formOwner_old insideB] at owner
  rw [copied.top_old insideA] at tree
  exact ⟨radioA,radioB,name,owner,tree⟩

theorem mem_cases (inside : x ∈ d'.forest.nodes) :
    x ∈ d.forest.nodes ∨ ∃ y ∈ o :: (d.descendants o deep).nodes,x = y + d.fresh := by
  rw [copied.forest,(Forest.place_perm ..).mem_iff,Forest.nodes_map,← List.cons_append,
    List.mem_append] at inside
  rcases inside with new | old
  · have new : x ∈ (o :: (d.descendants o deep).nodes).map (· + d.fresh) := new
    obtain ⟨y,member,is⟩ := List.mem_map.mp new
    exact .inr ⟨y,member,is.symm⟩
  · exact .inl old

theorem leaves (leaves : d.forest.Leaves d.isInput) : d'.forest.Leaves d'.isInput := by
  have below : (d.descendants o deep).Leaves d.isInput := by
    unfold descendants
    split
    · rw [Forest.shown_of_leaves (Forest.children_leaves leaves)]
      exact Forest.children_leaves leaves
    · trivial
  rw [copied.forest]
  refine Forest.place_leaves (fun leaf => ?_)
    (Forest.map_leaves below fun x _ => copied.isInput_new x)
    (Forest.leaves_congr leaves fun x member => copied.isInput_old member) _
  rw [copied.isInput_new] at leaf
  rw [descendants,leaf,Bool.not_true,Bool.and_false]
  rfl

end Copied

theorem cloneNode_invariant {deep : Bool} (inv : Invariant d)
    (apart : ∀ d' ∈ d.cloneNode o deep,∀ a ∈ o :: (d.descendants o deep).nodes,
      ∀ b ∈ o :: (d.descendants o deep).nodes,a ≠ b → d.getChecked a = true → d.getChecked b = true →
        d'.Together (a + d.fresh) (b + d.fresh) → d.Together a b)
    (taken : d.cloneNode o deep = some d') : Invariant d' := by
  obtain ⟨inside,copied⟩ := copied_of_cloneNode taken
  have subset := (d.copied_nodup deep inside).2
  refine ⟨copied.leaves inv.leaves,copied.sound inv.sound,?_⟩
  intro a insideA b insideB together checkedA checkedB
  have tree := together.2.2.2.2
  have isNew (x : ℕ) : x + d.fresh ∉ d.forest.nodes := fun old => by
    have := d.lt_fresh old
    omega
  rcases copied.mem_cases insideA with oldA | ⟨a,newA,rfl⟩
  · rcases copied.mem_cases insideB with oldB | ⟨b,newB,rfl⟩
    · rw [copied.getChecked_old oldA] at checkedA
      rw [copied.getChecked_old oldB] at checkedB
      exact inv.exclusive a oldA b oldB (copied.together_old oldA oldB together) checkedA checkedB
    · rw [copied.top_old oldA] at tree
      exact absurd (Forest.top_subset tree) (isNew b)
  · have insideA : a + d.fresh = o + d.fresh ∨
        a + d.fresh ∈ ((d.descendants o deep).map (· + d.fresh)).nodes := by
      rw [Forest.nodes_map,← List.mem_cons,← List.map_cons (f := (· + d.fresh))]
      exact List.mem_map_of_mem newA
    rcases copied.mem_cases insideB with oldB | ⟨b,newB,rfl⟩
    · rw [copied.forest,Forest.place_top_of_new (isNew a) insideA,Forest.nodes_cons,Forest.nodes_map,
        Forest.nodes_nil,List.append_nil] at tree
      have new : b ∈ (o :: (d.descendants o deep).nodes).map (· + d.fresh) := tree
      obtain ⟨y,-,rfl⟩ := List.mem_map.mp new
      exact absurd oldB (isNew y)
    · by_contra other
      have different : a ≠ b := fun same => other (by rw [same])
      have radioA := together.1
      have radioB := together.2.1
      rw [copied.isRadio_new] at radioA radioB
      rw [copied.getChecked_new radioA] at checkedA
      rw [copied.getChecked_new radioB] at checkedB
      have before := apart d' taken a newA b newB different checkedA checkedB together
      exact different (inv.exclusive a (subset a newA) b (subset b newB) before checkedA checkedB)

/-- No two checked radio buttons come together in a group: by a name, a type, an owner or a place, in
a copy, by their defaults, or by an attribute beside a button that scripts or users have checked. -/
def Allowed (d : Document) : Action → Prop
  | .setCheckedAttr o value =>
    d.isRadio o = true →
      (d.dirtyChecked o = false → ∀ x ∈ d.radioGroup o,d.dirtyChecked x = true → d.getChecked x = false) ∧
      (d.dirtyChecked o = true → d.isConnected o = true → value = "true" →
        ∀ x ∈ d.radioGroup o,d.getChecked x = false)
  | .setType o type => d.Apart (d.setType o type)
  | .setName o name => d.Apart (d.setName o name)
  | .setForm o form => d.Apart (d.setForm o form)
  | .setId o id => d.Apart (d.setId o id)
  | .insert o parent index =>
    d.isInput parent = false ∧ ∀ d' ∈ d.insert o parent index,d.Apart d'
  | .remove o => ∀ d' ∈ d.remove o,d.Apart d'
  | .cloneNode o deep =>
    ∀ d' ∈ d.cloneNode o deep,∀ a ∈ o :: (d.descendants o deep).nodes,
      ∀ b ∈ o :: (d.descendants o deep).nodes,a ≠ b → d.getChecked a = true → d.getChecked b = true →
        d'.Together (a + d.fresh) (b + d.fresh) → d.Together a b
  | .resetForm form =>
    ∀ a ∈ d.controls form,∀ b ∈ d.controls form,d.Together a b →
      (d.el a).input.hasChecked = true → (d.el b).input.hasChecked = true → a = b
  | _ => True

theorem step_invariant {action : Action} (inv : Invariant d) (allowed : d.Allowed action)
    (taken : d.step action = some d') : Invariant d' := by
  cases action with
  | check o checked =>
    rw [← Option.some.inj taken]
    exact setChecked_invariant inv checked
  | setCheckedAttr o value =>
    rw [← Option.some.inj taken]
    exact setCheckedAttr_invariant inv (fun radio => (allowed radio).1) fun radio => (allowed radio).2
  | removeCheckedAttr o =>
    rw [← Option.some.inj taken]
    exact removeCheckedAttr_invariant inv
  | setType o type =>
    rw [← Option.some.inj taken]
    exact setType_invariant inv allowed
  | setName o name =>
    rw [← Option.some.inj taken]
    exact attr_invariant inv rfl rfl allowed
  | setForm o form =>
    rw [← Option.some.inj taken]
    exact attr_invariant inv rfl rfl allowed
  | setId o id =>
    rw [← Option.some.inj taken]
    exact attr_invariant inv rfl rfl allowed
  | insert o parent index => exact insert_invariant inv allowed.1 allowed.2 taken
  | remove o => exact remove_invariant inv allowed taken
  | cloneNode o deep => exact cloneNode_invariant inv allowed taken
  | resetForm form =>
    simp only [step] at taken
    split at taken
    · rw [← Option.some.inj taken]
      exact resetForm_invariant inv allowed
    · cases taken
  | layout o =>
    rw [← Option.some.inj taken]
    exact layout_invariant inv
  | edit o =>
    rw [← Option.some.inj taken]
    exact edit_invariant inv

/-- A document as it is made from its source, without a checked radio button; inputs have no
children. -/
structure Initial (d : Document) : Prop where
  leaves : d.forest.Leaves d.isInput
  made : ∀ o,∃ type checked inDocument,(d.el o).input = Input.new type checked inDocument
  unchecked : d.Unchecked

theorem Initial.invariant (initial : Initial d) : Invariant d where
  leaves := initial.leaves
  sound := fun o => by
    obtain ⟨type,checked,inDocument,is⟩ := initial.made o
    rw [is]
    exact Input.new_sound type checked inDocument
  exclusive := fun a inside _ _ together checked _ => by
    rw [initial.unchecked a inside together.1] at checked
    cases checked

/-- Each group keeps at most one checked radio button. -/
theorem exclusive_of_allowed (d : Document) (initial : d.Initial) (actions : List Action)
    (allowed : Runs.Guarded step Allowed d actions) : Runs.Always step Exclusive d actions :=
  Runs.always_of_guarded step
    (fun _ _ _ invariant allowed taken => step_invariant invariant allowed taken)
    (fun _ invariant => invariant.exclusive) initial.invariant allowed

section instances

instance (d : Document) (a b : ℕ) : Decidable (d.Together a b) := inferInstanceAs (Decidable (_ ∧ _))

instance (d : Document) : Decidable d.Exclusive := inferInstanceAs (Decidable (∀ a ∈ _,_))

instance (d : Document) : Decidable d.Unchecked := inferInstanceAs (Decidable (∀ a ∈ _,_))

instance (d d' : Document) : Decidable (d.Apart d') := inferInstanceAs (Decidable (∀ a ∈ _,_))

instance (d : Document) : DecidablePred d.Allowed
  | .setCheckedAttr .. => inferInstanceAs (Decidable (_ → _))
  | .setType .. | .setName .. | .setForm .. | .setId .. => inferInstanceAs (Decidable (Apart _ _))
  | .insert .. => inferInstanceAs (Decidable (_ ∧ _))
  | .remove _ => inferInstanceAs (Decidable (∀ _ ∈ _,_))
  | .cloneNode .. => inferInstanceAs (Decidable (∀ _ ∈ _,_))
  | .resetForm _ => inferInstanceAs (Decidable (∀ _ ∈ _,_))
  | .check .. | .removeCheckedAttr _ | .layout _ | .edit _ => inferInstanceAs (Decidable True)

end instances

def sample : Document where
  root := 0
  forest := .cons 0 (.cons 1 (.cons 2 .nil (.cons 3 .nil .nil)) (.cons 4 .nil .nil)) .nil
  el
    | 1 => { tag := .form,idAttr := some "f" }
    | 2 | 3 => { tag := .input,name := some "n",input := .new (some "radio") false true }
    | 4 => { tag := .input,name := some "n",input := .new (some "radio") false true }
    | _ => { tag := .other,input := .new none false true }
  nodup := by decide
  rooted := by decide

theorem sample_initial : sample.Initial where
  leaves := by
    simp [sample,Forest.Leaves,isInput]
  made := fun o => by
    unfold sample
    dsimp only
    split
    · exact ⟨none,false,false,by rfl⟩
    all_goals exact ⟨_,_,_,rfl⟩
  unchecked := by decide

/-- Nothing of this brings two checked radio buttons together. -/
theorem sample_exclusive : Runs.Always step Exclusive sample
    [.check 2 true,.setCheckedAttr 4 "",.check 3 true,.setName 2 (some "m"),.cloneNode 1 true,
      .setForm 2 (some "f"),.remove 4,.insert 4 0 1,.resetForm 1] :=
  exclusive_of_allowed sample sample_initial _ (by decide)

/-- A checked radio button comes into a form where another one of its name is checked. -/
theorem moved_into_form : ¬∀ d : Document,d.Initial → ∀ actions,Runs.Always step Exclusive d actions := by
  intro promise
  have always := promise sample sample_initial [.check 2 true,.check 4 true,.insert 4 1 0]
  have exclusive := Runs.always_final step always rfl
  revert exclusive
  decide

end Document

end Sharko.Forms.Radios
