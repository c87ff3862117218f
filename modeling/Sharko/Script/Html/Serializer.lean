import Mathlib
import Sharko.Library.Worklist

/-! `html.rs`: a node and the children of a node as HTML, written with an explicit stack. -/

namespace Sharko.Script.Html

open Library

abbrev Text := List Char

inductive Namespace
  | none | html | svg | mathml | xml | xmlns | xlink
  | other (uri : Text)
  deriving DecidableEq

structure QualName where
  prefixed : Option Text
  ns : Namespace
  localName : Text

structure Attribute where
  name : QualName
  value : Text

structure ElementData where
  name : QualName
  attrs : List Attribute

inductive NodeData
  | document
  | element (el : ElementData)
  | anonymousBlock (el : ElementData)
  | text (content : Text)
  | comment (contents : Text)

structure Node where
  parent : Option ℕ
  children : List ℕ
  data : NodeData

/-- The nodes of the document and the content fragments that templates have. -/
structure Document where
  getNode : ℕ → Option Node
  templateContents : ℕ → Option ℕ

def Node.elementData (node : Node) : Option ElementData :=
  match node.data with
  | .element el | .anonymousBlock el => some el
  | _ => none

def QualName.isOneOf (name : QualName) (names : List String) : Bool :=
  names.any fun known => name.localName = known.toList

def QualName.isHtml (name : QualName) (names : List String) : Bool := name.ns = .html && name.isOneOf names

def isHtml (node : Node) (localName : String) : Bool := node.elementData.any fun el => el.name.isHtml [localName]

def fragmentAtom : String := "#document-fragment"

inductive Kind
  | document | fragment | element | anonymous | text | comment
  deriving DecidableEq

def kind (node : Node) : Kind :=
  match node.data with
  | .document => .document
  | .element el => if el.name.isOneOf [fragmentAtom] then .fragment else .element
  | .anonymousBlock _ => .anonymous
  | .text _ => .text
  | .comment _ => .comment

/-- What blitz keeps below an `input` is not in the DOM. -/
def domChildren (node : Node) : List ℕ :=
  if !node.children.isEmpty && isHtml node "input" then [] else node.children

def templateContainer (doc : Document) (template : ℕ) : ℕ := (doc.templateContents template).getD template

def isVoid (name : QualName) : Bool :=
  name.isOneOf ["area","base","br","col","embed","hr","img","input","link","meta","source","track",
    "wbr","basefont","bgsound","frame","keygen","param"]

def isRawText (name : QualName) : Bool :=
  name.isHtml ["style","script","xmp","iframe","noembed","noframes","plaintext","noscript"]

def isRawTextParent (node : Node) : Bool := node.elementData.any fun el => isRawText el.name

def quote : Char := '\x22'

def noBreakSpace : Char := '\u00a0'

def escapeChar (attr : Bool) (c : Char) : Text :=
  if c = '&' then "&amp;".toList
  else if c = noBreakSpace then "&nbsp;".toList
  else if c = quote ∧ attr then "&quot;".toList
  else if c = '<' then "&lt;".toList
  else if c = '>' then "&gt;".toList
  else [c]

def escapeInto (s : Text) (attr : Bool) : Text := s.flatMap (escapeChar attr)

def bytes (s : Text) : List UInt8 := s.flatMap String.utf8EncodeChar

def needs (s : Text) (attr : Bool) : Bool :=
  (bytes s).any fun b => [0x26,0x3C,0x3E,0xC2].contains b || (attr && b = 0x22)

def escape (s : Text) (attr : Bool) : Text := if !needs s attr then s else escapeInto s attr

def QualName.qname (name : QualName) : Text :=
  match name.prefixed with
  | some p => if p.isEmpty then name.localName else p ++ ':' :: name.localName
  | none => name.localName

def serializedTagName (el : ElementData) : Text :=
  if el.name.ns = .html ∨ el.name.ns = .svg ∨ el.name.ns = .mathml then el.name.localName else el.name.qname

def serializedAttrName (attr : Attribute) : Text :=
  match attr.name.ns with
  | .none => attr.name.localName
  | .xml => "xml:".toList ++ attr.name.localName
  | .xmlns =>
    if attr.name.localName = "xmlns".toList then "xmlns".toList else "xmlns:".toList ++ attr.name.localName
  | .xlink => "xlink:".toList ++ attr.name.localName
  | _ => attr.name.qname

def startTag (value : Text → Text) (el : ElementData) : Text :=
  '<' :: serializedTagName el ++
    el.attrs.flatMap (fun attr => ' ' :: serializedAttrName attr ++ '=' :: quote :: value attr.value ++ [quote]) ++
    ['>']

def endTag (el : ElementData) : Text := '<' :: '/' :: serializedTagName el ++ ['>']

inductive Step
  | opening (id : ℕ)
  | closing (id : ℕ)

def inside (doc : Document) (id : ℕ) (el : ElementData) : List Step :=
  let container := if el.name.isHtml ["template"] then templateContainer doc id else id
  match doc.getNode container with
  | some c => (domChildren c).map .opening
  | none => []

def openNode (doc : Document) (id : ℕ) (node : Node) : List Step × Text :=
  match node.data with
  | .text t =>
    ([],if (node.parent.bind doc.getNode).any isRawTextParent then t else escape t false)
  | .comment contents => ([],"<!--".toList ++ contents ++ "-->".toList)
  | .element el =>
    if el.name.isOneOf [fragmentAtom] then (node.children.map .opening,[])
    else if el.name.ns = .html && isVoid el.name then ([],startTag (escape · true) el)
    else (inside doc id el ++ [.closing id],startTag (escape · true) el)
  | .document => (node.children.map .opening,[])
  | .anonymousBlock _ => ([],[])

/-- A turn of the loop; none where `unwrap` panics. -/
def turn (doc : Document) : Step → Option (List Step × Text)
  | .closing id => ((doc.getNode id).bind Node.elementData).map fun el => ([],endTag el)
  | .opening id => some (((doc.getNode id).map (openNode doc id)).getD ([],[]))

/-- The text after `out`, if the fuel is enough for the loop. -/
def serializeChildren (doc : Document) (fuel id : ℕ) (out : Text) : Option Text :=
  match doc.getNode id with
  | none => some out
  | some node =>
    let container := if isHtml node "template" then templateContainer doc id else id
    match doc.getNode container with
    | none => some out
    | some c => Worklist.run (turn doc) fuel ((domChildren c).map .opening) out

def serializeNode (doc : Document) (fuel id : ℕ) (out : Text) : Option Text :=
  match doc.getNode id with
  | none => some out
  | some node =>
    match kind node with
    | .document | .fragment => serializeChildren doc fuel id out
    | _ => Worklist.run (turn doc) fuel [.opening id] out

end Sharko.Script.Html
