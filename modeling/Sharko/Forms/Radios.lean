import Mathlib.Logic.Function.Basic
import Sharko.Forms.Checkedness
import Sharko.Library.Forest

/-! A document with radio buttons, and what scripts and users do with it. -/

namespace Sharko.Forms

open Library

def Input.placed (el : Input) (inDocument : Bool) : Input := { el with inDocument }

namespace Radios

inductive Tag where
  | input
  | form
  | other
  deriving DecidableEq

structure Element where
  tag : Tag
  name : Option String := none
  form : Option String := none
  idAttr : Option String := none
  input : Input := {}
  deriving DecidableEq

def copyCloneState (el : Input) : Input :=
  let new := { Input.new el.type el.hasChecked false with checkedAttrs := el.checkedAttrs }
  if el.checkable && (el.dirtyChecked || el.getChecked != el.hasChecked) then
    { new.writeCheckboxState el.getChecked with dirtyChecked := true }
  else new

def Element.copy (el : Element) : Element := { el with input := copyCloneState el.input }

/-- All trees of nodes, of which one is the document's. -/
structure Document where
  root : ℕ
  forest : Forest ℕ
  el : ℕ → Element
  nodup : forest.nodes.Nodup
  rooted : root ∈ forest.nodes

namespace Document

variable (d : Document)

def isInput (o : ℕ) : Bool := (d.el o).tag = .input

def isRadio (o : ℕ) : Bool := d.isInput o && inputType (d.el o).input.type = "radio"

def getChecked (o : ℕ) : Bool := (d.el o).input.getChecked

def dirtyChecked (o : ℕ) : Bool := (d.el o).input.dirtyChecked

def isConnected (o : ℕ) : Bool := o ∈ (d.forest.top d.root).nodes

def getElementById (id : String) : Option ℕ :=
  (d.forest.top d.root).nodes.find? fun o => (d.el o).idAttr = some id

def formOwner (o : ℕ) : Option ℕ :=
  match (d.el o).form with
  | some id =>
    if d.isConnected o then (d.getElementById id).filter fun f => (d.el f).tag = .form else none
  | none => (d.forest.ancestors o).find? fun p => (d.el p).tag = .form

def subtree (o : ℕ) : List ℕ := ((d.forest.top o).shown d.isInput).nodes

def radioGroup (o : ℕ) : List ℕ :=
  match (d.el o).name.filter (· ≠ "") with
  | none => []
  | some name =>
    (d.subtree o).filter fun x =>
      x ≠ o && d.isRadio x && (d.el x).name = some name && d.formOwner x = d.formOwner o

def modify (o : ℕ) (change : Input → Input) : Document :=
  { d with el := Function.update d.el o { d.el o with input := change (d.el o).input } }

def uncheck (others : List ℕ) : Document :=
  others.foldl (fun d o => d.modify o (·.writeCheckboxState false)) d

def setChecked (o : ℕ) (checked : Bool) : Document :=
  if !d.isInput o then d
  else
    let d := d.modify o (·.setChecked checked)
    if d.isRadio o && checked then d.uncheck (d.radioGroup o) else d

def setCheckedAttr (o : ℕ) (value : String) : Document :=
  if !d.isInput o then d
  else
    let inDocument := d.isConnected o
    let d := d.modify o fun el => (el.placed inDocument).setCheckedAttr value
    if d.isRadio o && !d.dirtyChecked o then
      d.uncheck ((d.radioGroup o).filter fun x => !d.dirtyChecked x)
    else d

def removeCheckedAttr (o : ℕ) : Document :=
  if !d.isInput o then d else d.modify o (·.removeCheckedAttr)

def setType (o : ℕ) (type : Option String) : Document :=
  if !d.isInput o then d else d.modify o (·.setType type)

def setName (o : ℕ) (name : Option String) : Document :=
  { d with el := Function.update d.el o { d.el o with name } }

def setForm (o : ℕ) (form : Option String) : Document :=
  { d with el := Function.update d.el o { d.el o with form } }

def setId (o : ℕ) (idAttr : Option String) : Document :=
  { d with el := Function.update d.el o { d.el o with idAttr } }

def layout (o : ℕ) : Document :=
  let inDocument := d.isConnected o
  if !d.isInput o then d else d.modify o fun el => (el.placed inDocument).layout

def edit (o : ℕ) : Document := if !d.isInput o then d else d.modify o (·.edit)

def resetForm (form : ℕ) : Document :=
  ((d.subtree form).filter fun x => d.isInput x && d.formOwner x = some form).foldl
    (fun d o => d.modify o (·.reset)) d

def remove (o : ℕ) : Option Document :=
  if inside : o ∈ d.forest.nodes then
    if d.forest.ancestors o = [] then none
    else
      let rest := d.forest.without o
      some { d with
        forest := rest.place o rest.width (d.forest.children o)
        nodup := ((Forest.place_perm o rest.width rest (d.forest.children o)).nodup_iff.mpr
          ((Forest.without_perm inside).nodup_iff.mp d.nodup))
        rooted := (Forest.place_perm ..).mem_iff.mpr ((Forest.without_perm inside).mem_iff.mp d.rooted) }
  else none

def insert (o parent index : ℕ) : Option Document :=
  if inside : o ∈ d.forest.nodes then
    let rest := d.forest.without o
    if there : parent ∈ rest.nodes then
      if o = d.root then none
      else
        some { d with
          forest := rest.insert parent o index (d.forest.children o)
          nodup := ((Forest.insert_perm index (d.forest.children o) there).nodup_iff.mpr
            ((Forest.without_perm inside).nodup_iff.mp d.nodup))
          rooted := (Forest.insert_perm _ _ there).mem_iff.mpr
            ((Forest.without_perm inside).mem_iff.mp d.rooted) }
    else none
  else none

def fresh : ℕ := d.forest.nodes.foldr max 0 + 1

theorem lt_fresh {o : ℕ} (inside : o ∈ d.forest.nodes) : o < d.fresh := by
  have below (l : List ℕ) (member : o ∈ l) : o ≤ l.foldr max 0 := by
    induction l with
    | nil => cases member
    | cons x l ih =>
      rw [List.foldr_cons]
      rcases List.mem_cons.mp member with rfl | later
      · exact Nat.le_max_left ..
      · exact Nat.le_trans (ih later) (Nat.le_max_right ..)
  exact Nat.lt_succ_of_le (below _ inside)

def descendants (o : ℕ) (deep : Bool) : Forest ℕ :=
  if deep && !d.isInput o then (d.forest.children o).shown d.isInput else .nil

theorem descendants_sublist (o : ℕ) (deep : Bool) :
    (d.descendants o deep).nodes.Sublist (d.forest.children o).nodes := by
  unfold descendants
  split
  · exact Forest.shown_sublist ..
  · exact List.nil_sublist _

theorem copied_nodup {o : ℕ} (deep : Bool) (inside : o ∈ d.forest.nodes) :
    (o :: (d.descendants o deep).nodes).Nodup ∧ ∀ x ∈ o :: (d.descendants o deep).nodes,x ∈ d.forest.nodes := by
  have subset := (d.descendants_sublist o deep).cons_cons o
  have whole := Forest.without_perm inside
  rw [← List.cons_append] at whole
  refine ⟨subset.nodup (whole.nodup_iff.mp d.nodup).of_append_left,fun x member => ?_⟩
  exact whole.mem_iff.mpr (List.mem_append_left _ (subset.subset member))

theorem clone_nodup {o : ℕ} (deep : Bool) (inside : o ∈ d.forest.nodes) :
    (d.forest.place (o + d.fresh) d.forest.width ((d.descendants o deep).map (· + d.fresh))).nodes.Nodup := by
  obtain ⟨nodup,subset⟩ := d.copied_nodup deep inside
  rw [(Forest.place_perm ..).nodup_iff,Forest.nodes_map,← List.cons_append,
    show (o + d.fresh) :: (d.descendants o deep).nodes.map (· + d.fresh) =
      (o :: (d.descendants o deep).nodes).map (· + d.fresh) from rfl]
  refine List.Nodup.append (nodup.map fun _ _ => Nat.add_right_cancel) d.nodup fun x new old => ?_
  obtain ⟨y,-,rfl⟩ := List.mem_map.mp new
  have := d.lt_fresh old
  omega

def cloneNode (o : ℕ) (deep : Bool) : Option Document :=
  if inside : o ∈ d.forest.nodes then
    if o = d.root then none
    else
      some { d with
        forest := d.forest.place (o + d.fresh) d.forest.width
          ((d.descendants o deep).map (· + d.fresh))
        el := fun x => if d.fresh ≤ x then (d.el (x - d.fresh)).copy else d.el x
        nodup := d.clone_nodup deep inside
        rooted := (Forest.place_perm ..).mem_iff.mpr
          (List.mem_cons_of_mem _ (List.mem_append_right _ d.rooted)) }
  else none

end Document

inductive Action where
  | check (o : ℕ) (checked : Bool)
  | setCheckedAttr (o : ℕ) (value : String)
  | removeCheckedAttr (o : ℕ)
  | setType (o : ℕ) (type : Option String)
  | setName (o : ℕ) (name : Option String)
  | setForm (o : ℕ) (form : Option String)
  | setId (o : ℕ) (id : Option String)
  | insert (o parent index : ℕ)
  | remove (o : ℕ)
  | cloneNode (o : ℕ) (deep : Bool)
  | resetForm (form : ℕ)
  | layout (o : ℕ)
  | edit (o : ℕ)

namespace Document

def step (d : Document) : Action → Option Document
  | .check o checked => some (d.setChecked o checked)
  | .setCheckedAttr o value => some (d.setCheckedAttr o value)
  | .removeCheckedAttr o => some (d.removeCheckedAttr o)
  | .setType o type => some (d.setType o type)
  | .setName o name => some (d.setName o name)
  | .setForm o form => some (d.setForm o form)
  | .setId o id => some (d.setId o id)
  | .insert o parent index => d.insert o parent index
  | .remove o => d.remove o
  | .cloneNode o deep => d.cloneNode o deep
  | .resetForm form => if (d.el form).tag = .form then some (d.resetForm form) else none
  | .layout o => some (d.layout o)
  | .edit o => some (d.edit o)

def Together (d : Document) (a b : ℕ) : Prop :=
  d.isRadio a = true ∧ d.isRadio b = true ∧
    (∃ name ∈ (d.el a).name,name ≠ "" ∧ (d.el b).name = some name) ∧
    d.formOwner a = d.formOwner b ∧ b ∈ (d.forest.top a).nodes

/-- At most one radio button of each group is checked. -/
def Exclusive (d : Document) : Prop :=
  ∀ a ∈ d.forest.nodes,∀ b ∈ d.forest.nodes,
    d.Together a b → d.getChecked a = true → d.getChecked b = true → a = b

def Unchecked (d : Document) : Prop :=
  ∀ o ∈ d.forest.nodes,d.isRadio o = true → d.getChecked o = false

end Document

end Radios

end Sharko.Forms
