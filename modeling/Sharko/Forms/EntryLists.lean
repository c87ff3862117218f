import Mathlib
import Sharko.Forms.Checkedness
import Sharko.Library.Ancestors

/-! The entries of a form, as its native submission and as `FormData` collect them. -/

namespace Sharko.Forms.EntryLists

open Library

inductive Data where
  | element (html : Bool) (localName : String)
  | text (content : String)
  | other

structure Node where
  data : Data
  attr : String → Option String := fun _ => none
  input : Input := {}
  editorText : Option String := none
  modeValue : Option String := none
  selectedness : Option Bool := none
  multiSelected : Option (List ℕ) := none
  customElement : Bool := false

/-- The trees of nodes, of which one is the document's. -/
structure Document where
  root : ℕ
  forest : Forest ℕ
  node : ℕ → Node
  nodup : forest.nodes.Nodup
  rooted : root ∈ forest.nodes
  rootTop : forest.ancestors root = []
  rootData : ∀ html localName,(node root).data ≠ .element html localName
  sanitizeRange : (String → Option String) → String → String

inductive Value where
  | text (s : String)
  | emptyFile
  deriving DecidableEq

abbrev Entry := String × Value

def normalizeNewlinesList : List Char → List Char
  | '\r' :: '\n' :: rest => '\n' :: normalizeNewlinesList rest
  | '\r' :: rest => '\n' :: normalizeNewlinesList rest
  | c :: rest => c :: normalizeNewlinesList rest
  | [] => []

def normalizeNewlines (s : String) : String := String.ofList (normalizeNewlinesList s.toList)

def stripNewlines (s : String) : String := String.ofList (s.toList.filter fun c => c ≠ '\n' && c ≠ '\r')

def sanitizeColor (v : String) : String :=
  let v := Text.trim v
  match v.toList with
  | '#' :: digits =>
    if digits.length = 6 && digits.all fun c =>
        ('0' ≤ c && c ≤ '9') || ('a' ≤ c && c ≤ 'f') || ('A' ≤ c && c ≤ 'F') then
      Text.toAsciiLowercase v
    else "#000000"
  | _ => "#000000"

def isAsciiWhitespace (c : Char) : Bool := [' ','\t','\n','\x0c','\r'].contains c

def splitWhitespace (word : List Char) : List Char → List (List Char)
  | [] => if word = [] then [] else [word]
  | c :: rest =>
    if isAsciiWhitespace c then
      if word = [] then splitWhitespace [] rest else word :: splitWhitespace [] rest
    else splitWhitespace (word ++ [c]) rest

namespace Document

variable (d : Document)

def attr (o : ℕ) (name : String) : Option String :=
  if name = "type" then (d.node o).input.type else (d.node o).attr name

def hasAttr (o : ℕ) (name : String) : Bool := (d.attr o name).isSome

def isElement (o : ℕ) (name : String) : Bool :=
  match (d.node o).data with
  | .element _ localName => localName = name
  | _ => false

def isHtml (o : ℕ) (name : String) : Bool :=
  match (d.node o).data with
  | .element html localName => html && localName = name
  | _ => false

def isConnected (o : ℕ) : Bool := o ∈ (d.forest.top d.root).nodes

def getElementById (id : String) : Option ℕ :=
  if id = "" then none
  else (d.forest.top d.root).nodes.find? fun o =>
    match (d.node o).data with
    | .element _ _ => d.attr o "id" = some id
    | _ => false

def inclusiveAncestors (o : ℕ) : List ℕ := o :: d.forest.ancestors o

def childIds (o : ℕ) : List ℕ := (d.forest.children o).roots

def textOf (o : ℕ) : Option String :=
  match (d.node o).data with
  | .text content => some content
  | _ => none

def descendantText (o : ℕ) : String :=
  String.join ((d.forest.children o).nodes.filterMap d.textOf)

def childText (o : ℕ) : String := String.join ((d.childIds o).filterMap d.textOf)

section native

def formOwner (o : ℕ) : Option ℕ :=
  match d.attr o "form" with
  | some id => if !d.isConnected o then none else (d.getElementById id).filter (d.isHtml · "form")
  | none => (d.forest.ancestors o).find? (d.isHtml · "form")

def optionDisabled (o : ℕ) : Bool :=
  d.hasAttr o "disabled" ||
    (d.forest.ancestors o).head?.any fun p => d.isHtml p "optgroup" && d.hasAttr p "disabled"

def selectOptions (o : ℕ) : List ℕ :=
  (d.childIds o).flatMap fun c =>
    if d.isHtml c "option" then [c]
    else if d.isHtml c "optgroup" then (d.childIds c).filter (d.isHtml · "option")
    else []

def isMultiple (o : ℕ) : Bool := d.hasAttr o "multiple"

def parseU32 (text : String) : Option ℕ :=
  let digits := match text.toList with
    | '+' :: rest => rest
    | all => all
  if digits ≠ [] ∧ digits.all (fun c => '0' ≤ c ∧ c ≤ '9') then
    let value := digits.foldl (fun n c => 10 * n + (c.toNat - '0'.toNat)) 0
    if value < 2 ^ 32 then some value else none
  else none

def displaySize (o : ℕ) : ℕ :=
  match (d.attr o "size").bind fun size => parseU32 (Text.trim size) with
  | some (n + 1) => n + 1
  | _ => if d.isMultiple o then 4 else 1

def marked (o : ℕ) : Bool := (d.node o).selectedness.getD (d.hasAttr o "selected")

def picked (o : ℕ) : Option ℕ :=
  let opts := d.selectOptions o
  match (opts.filter d.marked).getLast? with
  | some last => some last
  | none =>
    if !(opts.any fun o => (d.node o).selectedness.isSome) && d.displaySize o = 1 then
      opts.find? fun o => !d.optionDisabled o
    else none

def selectednessList (o : ℕ) : List (ℕ × Bool) :=
  (d.selectOptions o).map fun x => (x,if d.isMultiple o then d.marked x else d.picked o = some x)

def collapsedText (o : ℕ) : String :=
  String.ofList ([' '].intercalate (splitWhitespace [] (d.descendantText o).toList))

def optionValue (o : ℕ) : String := (d.attr o "value").getD (d.collapsedText o)

def getChecked (o : ℕ) : Bool := (d.node o).input.getChecked

def getValue (o : ℕ) : String :=
  let value := (d.attr o "value").getD ""
  if d.isHtml o "input" then
    let ty := inputType (d.attr o "type")
    match valueMode ty with
    | .text => (d.node o).editorText.getD (stripNewlines value)
    | .default => value
    | .defaultOn => (d.attr o "value").getD "on"
    | .filename => ""
    | .value =>
      (d.node o).modeValue.getD
        (if ty = "range" then d.sanitizeRange (d.attr o) value
        else if ty = "color" then sanitizeColor value else value)
  else if d.isHtml o "textarea" then (d.node o).editorText.getD (normalizeNewlines (d.childText o))
  else if d.isHtml o "select" then
    (((d.selectednessList o).find? fun (_,s) => s).map fun (x,_) => d.optionValue x).getD ""
  else if d.isHtml o "option" then d.optionValue o
  else value

def submittable : List String := ["button","input","select","textarea"]

end native

section script

def LISTED : List String := ["button","fieldset","input","object","output","select","textarea"]

def closest (o : ℕ) (matches_ : ℕ → Bool) : Option ℕ := (d.inclusiveAncestors o).find? matches_

def parent (o : ℕ) : Option ℕ := (d.forest.ancestors o).head?

def ownerOf (o : ℕ) : Option ℕ :=
  match (d.node o).data with
  | .element true localName =>
    match if LISTED.contains localName || (d.node o).customElement then d.attr o "form" else none with
    | some f =>
      (if d.isConnected o then d.getElementById f else none).filter (d.isElement · "form")
    | none => (d.parent o).bind fun p => d.closest p (d.isElement · "form")
  | _ => none

def formOwnerOf (o : ℕ) : Option ℕ :=
  if (d.node o).customElement && (d.hasAttr o "form") then d.ownerOf o
  else if d.isHtml o "legend" then
    ((d.parent o).filter (d.isElement · "fieldset")).bind d.ownerOf
  else if d.isHtml o "option" then
    let p := match (d.parent o).filter (d.isElement · "optgroup") with
      | some group => d.parent group
      | none => d.parent o
    (p.filter (d.isElement · "select")).bind d.ownerOf
  else d.ownerOf o

def isListed (o : ℕ) : Bool := LISTED.any (d.isElement o)

end script

end Document

def Entry.normalized : Entry → Entry
  | (name,.text s) => (name,.text (normalizeNewlines s))
  | (name,.emptyFile) => (name,.emptyFile)

end Sharko.Forms.EntryLists
