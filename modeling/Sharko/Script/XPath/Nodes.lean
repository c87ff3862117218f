import Sharko.Library.Preorder
import Sharko.Library.Text

/-! Nodes as the XPath engine sees them (`crates/script/js/25_xpath.js`, node access). A
native id is the address of its node in the tree of the context node; an `Attr`
object has a number of its own. The tree does not change during an evaluation. -/

namespace Sharko.Script.XPath
open Library

abbrev JsString := List UInt16

def js (text : String) : JsString := text.toList.map fun c => UInt16.ofNat c.toNat

inductive NodeType where
  | element
  | text
  | cdata
  | processingInstruction
  | comment
  | document
  | doctype
  | fragment
deriving DecidableEq

/-- Elements, documents and fragments are the nodes with children. -/
def NodeType.hasChildren : NodeType → Bool
  | .element | .document | .fragment => true
  | _ => false

structure NodeData where
  nodeType : NodeType
  localName : JsString
  namespaceURI : Option JsString
  namePrefix : Option JsString
  attributes : List (JsString × JsString)
  text : JsString
  target : JsString
deriving DecidableEq

structure Attr where
  owner : Option Address
  name : JsString
  localName : JsString
  namespaceURI : Option JsString
  namePrefix : Option JsString
  storedValue : JsString
deriving DecidableEq

inductive Node where
  | tree (id : Address)
  | attr (object : Nat)
deriving DecidableEq

/-- The tree of a context node, with the natives and the objects that belong to it. -/
structure Document where
  root : Rose NodeData
  attr : Nat → Attr
  attrNode : Address → JsString → Nat
  isDocument : Bool
  htmlMode : Bool
  getElementById : JsString → Option Address
  /-- The native `querySelector` of the root for the selector of an id. -/
  querySelectorId : JsString → Option Address
  parents : ∀ a s, root.at? a = some s → s.data.nodeType.hasChildren = false → s.children = []
  roots : ∀ i a s, root.at? (i :: a) = some s →
    s.data.nodeType.hasChildren = true → s.data.nodeType = .element
  names : ∀ a s, root.at? a = some s → (s.data.attributes.map Prod.fst).Nodup
  owners : ∀ o a, (attr o).owner = some a →
    (root.at? a).map (fun s => s.data.nodeType) = some .element
  attrNode_owner : ∀ a name, (root.at? a).map (fun s => s.data.nodeType) = some .element →
    (attr (attrNode a name)).owner = some a
  attrNode_name : ∀ a name, (root.at? a).map (fun s => s.data.nodeType) = some .element →
    (attr (attrNode a name)).name = name
  getElementById_inside : ∀ s a, getElementById s = some a → root.Inside a
  querySelectorId_inside : ∀ s a, querySelectorId s = some a → root.Inside a

def namespaceHtml : JsString := js "http://www.w3.org/1999/xhtml"
def namespaceXml : JsString := js "http://www.w3.org/XML/1998/namespace"
def namespaceXmlns : JsString := js "http://www.w3.org/2000/xmlns/"
def namespaceXlink : JsString := js "http://www.w3.org/1999/xlink"

def asciiLower (s : JsString) : JsString :=
  s.map fun c => if 65 ≤ c && c ≤ 90 then c + 32 else c

namespace Document
variable (d : Document)

def dataOf (id : Address) : Option NodeData := (d.root.at? id).map Rose.data

def kindOf (id : Address) : Option NodeType := (d.dataOf id).map NodeData.nodeType

def isElement (id : Address) : Bool := d.kindOf id == some .element

def elLocal (id : Address) : JsString := ((d.dataOf id).map NodeData.localName).getD []

def elNs (id : Address) : Option JsString := (d.dataOf id).bind NodeData.namespaceURI

def attrNames (id : Address) : List JsString :=
  ((d.dataOf id).map fun data => data.attributes.map Prod.fst).getD []

def getAttr (id : Address) (name : JsString) : Option JsString :=
  (d.dataOf id).bind fun data => data.attributes.lookup name

def ownerId (o : Nat) : Option Address := (d.attr o).owner

def rootOf : Node → Node
  | .tree _ => .tree []
  | .attr o => if (d.ownerId o).isSome then .tree [] else .attr o

/-- The HTML parser gives HTML elements plain names only. -/
def plainAttrs (id : Address) : Bool := d.htmlMode && d.elNs id == some namespaceHtml

def isNsDecl (id : Address) (name : JsString) : Bool :=
  (name == js "xmlns" || (js "xmlns:").isPrefixOf name) && !d.plainAttrs id

def declared (name : JsString) (id : Address) : Option JsString :=
  ((id :: id.ancestors).filter d.isElement).findSome? fun e =>
    (d.getAttr e (js "xmlns:" ++ name)).filter fun ns => !ns.isEmpty

def attrParts (id : Address) (name : JsString) : JsString × Option JsString × Option JsString :=
  let i := name.idxOf 58
  if d.plainAttrs id then (name,none,none)
  else if i = 0 || i = name.length then
    (name,if name == js "xmlns" then some namespaceXmlns else none,none)
  else
    let pre := name.take i
    let ns :=
      if pre == js "xmlns" then some namespaceXmlns
      else if pre == js "xml" then some namespaceXml
      else (if d.htmlMode then none else d.declared pre id).or
        (if pre == js "xlink" then some namespaceXlink else none)
    if ns.isSome then (name.drop (i + 1),ns,some pre) else (name,none,none)

def nameParts : Node → Option (JsString × Option JsString × Option JsString)
  | .attr o =>
    match d.ownerId o with
    | some owner => some (d.attrParts owner (d.attr o).name)
    | none => some ((d.attr o).localName,(d.attr o).namespaceURI,(d.attr o).namePrefix)
  | .tree id =>
    match d.kindOf id with
    | some .element => some (d.elLocal id,d.elNs id,(d.dataOf id).bind NodeData.namePrefix)
    | some .processingInstruction => (d.dataOf id).map fun data => (data.target,none,none)
    | _ => none

def textContent (id : Address) : JsString :=
  (d.root.subtree id).flatMap fun a => match d.dataOf a with
    | some data => if data.nodeType = .text ∨ data.nodeType = .cdata then data.text else []
    | none => []

def stringValue : Node → JsString
  | .attr o => ((d.ownerId o).bind fun owner => d.getAttr owner (d.attr o).name).getD (d.attr o).storedValue
  | .tree id =>
    match d.kindOf id with
    | some .element | some .document | some .fragment => d.textContent id
    | some .doctype | none => []
    | _ => ((d.dataOf id).map NodeData.text).getD []

def elementById (s : JsString) : Option Address :=
  if s.isEmpty then none
  else if d.isDocument then d.getElementById s
  else if d.isElement [] && d.getAttr [] (js "id") == some s then some []
  else d.querySelectorId s

def xmlLang (n : Node) : Option JsString :=
  let start := match n with
    | .tree id => some id
    | .attr o => d.ownerId o
  start.bind fun id => (id :: id.ancestors).findSome? fun e =>
    if d.isElement e && !d.plainAttrs e then d.getAttr e (js "xml:lang") else none

end Document

end Sharko.Script.XPath
