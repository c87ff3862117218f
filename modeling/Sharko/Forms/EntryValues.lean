import Mathlib.Data.List.DropRight
import Sharko.Forms.EntryControls

/-! The entries of one control, and the two lists of entries. -/

namespace Sharko.Forms.EntryLists

open Library

section texts

theorem blank : isAsciiWhitespace ' ' = true := by decide

end texts

namespace Document

variable {d : Document}

def isSelected (d : Document) (o x : ℕ) : Bool :=
  if d.isMultiple o then d.marked x else d.picked o = some x

section controls

variable {form o : ℕ} {submitter : Option ℕ}

/-- The names that a control does not have. -/
structure Kind (d : Document) (o : ℕ) (name : String) : Prop where
  input : d.isHtml o "input" = decide (name = "input")
  button : d.isHtml o "button" = decide (name = "button")
  select : d.isHtml o "select" = decide (name = "select")
  textarea : d.isHtml o "textarea" = decide (name = "textarea")
  option : d.isHtml o "option" = decide (name = "option")
  fieldset : d.isHtml o "fieldset" = decide (name = "fieldset")
  object : d.isHtml o "object" = decide (name = "object")
  output : d.isHtml o "output" = decide (name = "output")

end controls

section samples

def sampleElement (localName : String) (attrs : List (String × String)) : Node where
  data := .element true localName
  attr name := List.lookup name attrs
  input := Input.new (List.lookup "type" attrs) (List.lookup "checked" attrs).isSome true

def sampleNode (group : List (String × String)) : ℕ → Node
  | 1 => sampleElement "form" []
  | 2 => sampleElement "input" [("type","checkbox"),("checked",""),("name","box")]
  | 3 => sampleElement "textarea" [("name","text")]
  | 4 => { data := .text "one\r\ntwo" }
  | 5 => sampleElement "select" [("name","choice")]
  | 6 => sampleElement "optgroup" group
  | 7 => sampleElement "option" [("selected","")]
  | 8 => { data := .text " a  b " }
  | _ => { data := .other }

def sample (group : List (String × String)) : Document where
  root := 0
  forest := .cons 0 (.cons 1 (.cons 2 .nil (.cons 3 (.cons 4 .nil .nil) (.cons 5 (.cons 6
    (.cons 7 (.cons 8 .nil .nil) .nil) .nil) .nil))) .nil) .nil
  node := sampleNode group
  nodup := by decide
  rooted := by decide
  rootTop := by decide
  rootData := fun _ _ h => by cases h
  sanitizeRange _ v := v

end samples

end Document

end Sharko.Forms.EntryLists
