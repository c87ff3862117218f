import Mathlib
import Sharko.Library.Runs
import Sharko.Library.Text

/-! The selectedness of the options of a `<select>`: worked out from the choices on record each time
it is asked for, and as the state that the HTML standard keeps. -/

namespace Sharko.Forms.Selects

open Library

structure OptionEl where
  selected : Bool := false
  disabled : Bool := false
  group : Option Bool := none
  value : String := ""

structure Select where
  multiple : Bool
  size : Option String
  el : ℕ → OptionEl
  options : List ℕ := []
  selectedness : ℕ → Option Bool := fun _ => none

namespace Select

variable (s : Select)

def parseU32 (text : String) : Option ℕ :=
  let digits := match text.toList with
    | '+' :: rest => rest
    | all => all
  if digits ≠ [] ∧ digits.all (fun c => '0' ≤ c ∧ c ≤ '9') then
    let value := digits.foldl (fun n c => 10 * n + (c.toNat - '0'.toNat)) 0
    if value < 2 ^ 32 then some value else none
  else none

def displaySize : ℕ :=
  match s.size.bind fun size => parseU32 (Text.trim size) with
  | some (n + 1) => n + 1
  | _ => if s.multiple then 4 else 1

def optionDisabled (o : ℕ) : Bool := (s.el o).disabled || (s.el o).group.getD false

def marked (o : ℕ) : Bool := (s.selectedness o).getD (s.el o).selected

def anyExplicit : Bool := s.options.any fun o => (s.selectedness o).isSome

def firstEnabled : Option ℕ := s.options.find? fun o => !s.optionDisabled o

def picked : Option ℕ :=
  match (s.options.filter s.marked).getLast? with
  | some last => some last
  | none => if !s.anyExplicit && s.displaySize = 1 then s.firstEnabled else none

def isSelected (o : ℕ) : Bool := if s.multiple then s.marked o else s.picked = some o

def selectednessList : List (ℕ × Bool) := s.options.map fun o => (o,s.isSelected o)

def record (choice : ℕ → Option Bool) : Select :=
  { s with selectedness := fun o => if o ∈ s.options then choice o else s.selectedness o }

def setSelectedIndex (index : Int) : Select :=
  s.record fun o => some (decide ((s.options.idxOf o : Int) = index))

def setValue (value : String) : Select :=
  let found := s.options.find? fun o => (s.el o).value = value
  s.record fun o => some (found = some o)

def setOptionSelected (o : ℕ) (selected : Bool) : Select :=
  let s := if o ∈ s.options && selected && !s.multiple then s.record fun other => some (other = o) else s
  { s with selectedness := Function.update s.selectedness o (some selected) }

def reset : Select := s.record fun _ => none

def setAttr (o : ℕ) (selected : Bool) : Select :=
  { s with el := Function.update s.el o { s.el o with selected } }

def insert (o i : ℕ) (group : Option Bool) : Select :=
  { s with
    el := Function.update s.el o { s.el o with group }
    options := s.options.take i ++ o :: s.options.drop i }

def remove (o : ℕ) : Select := { s with options := s.options.erase o }

end Select

structure Standard where
  selectedness : ℕ → Bool
  dirtiness : ℕ → Bool := fun _ => false

namespace Standard

variable (t : Standard) (s : Select)

/-- The selectedness setting algorithm. -/
def settle : Standard :=
  if s.multiple then t
  else
    match (s.options.filter t.selectedness).getLast? with
    | some last =>
      { t with selectedness := fun o => if o ∈ s.options then o = last else t.selectedness o }
    | none =>
      match s.firstEnabled with
      | some first =>
        if s.displaySize = 1 then
          { t with selectedness := Function.update t.selectedness first true }
        else t
      | none => t

def choose (o : ℕ) : Standard :=
  { t with selectedness := fun other =>
      if other = o then true
      else if !s.multiple && o ∈ s.options && other ∈ s.options then false
      else t.selectedness other }

def clear (o : ℕ) : Standard := { t with selectedness := Function.update t.selectedness o false }

def dirty (o : ℕ) : Standard := { t with dirtiness := Function.update t.dirtiness o true }

def pick (only : Option ℕ) : Standard :=
  let none : Standard :=
    { t with selectedness := fun o => if o ∈ s.options then false else t.selectedness o }
  match only with
  | some o => (none.choose s o).dirty o
  | .none => none

def reset : Standard :=
  { selectedness := fun o => if o ∈ s.options then (s.el o).selected else t.selectedness o
    dirtiness := fun o => if o ∈ s.options then false else t.dirtiness o : Standard }.settle s

end Standard

inductive Action where
  | insert (o i : ℕ) (group : Option Bool)
  | remove (o : ℕ)
  | setAttr (o : ℕ)
  | removeAttr (o : ℕ)
  | setSelected (o : ℕ) (selected : Bool)
  | setSelectedIndex (index : Int)
  | setValue (value : String)
  | reset

structure Pair where
  code : Select
  standard : Standard

namespace Pair

def step (p : Pair) : Action → Option Pair
  | .insert o i group =>
    if o ∈ p.code.options then none
    else
      let code := p.code.insert o i group
      let standard := if p.standard.selectedness o then p.standard.choose code o else p.standard
      some ⟨code,standard.settle code⟩
  | .remove o =>
    if o ∉ p.code.options then none
    else
      let code := p.code.remove o
      some ⟨code,p.standard.settle code⟩
  | .setAttr o =>
    if (p.code.el o).selected then some p
    else
      let code := p.code.setAttr o true
      some ⟨code,if p.standard.dirtiness o then p.standard else p.standard.choose code o⟩
  | .removeAttr o =>
    if !(p.code.el o).selected then some p
    else
      let code := p.code.setAttr o false
      some ⟨code,if p.standard.dirtiness o then p.standard else p.standard.clear o⟩
  | .setSelected o selected =>
    let code := p.code.setOptionSelected o selected
    let standard := (if selected then p.standard.choose code o else p.standard.clear o).dirty o
    some ⟨code,if o ∈ code.options then standard.settle code else standard⟩
  | .setSelectedIndex index =>
    let chosen := p.code.options.find? fun o => (p.code.options.idxOf o : Int) = index
    some ⟨p.code.setSelectedIndex index,p.standard.pick p.code chosen⟩
  | .setValue value =>
    let chosen := p.code.options.find? fun o => (p.code.el o).value = value
    some ⟨p.code.setValue value,p.standard.pick p.code chosen⟩
  | .reset => some ⟨p.code.reset,p.standard.reset p.code⟩

def start (multiple : Bool) (size : Option String) (el : ℕ → OptionEl) : Pair :=
  ⟨{ multiple,size,el },{ selectedness := fun o => (el o).selected }⟩

/-- What is worked out is what the standard keeps. -/
def Agrees (p : Pair) : Prop := ∀ e ∈ p.code.selectednessList,e.2 = p.standard.selectedness e.1

end Pair

end Sharko.Forms.Selects
