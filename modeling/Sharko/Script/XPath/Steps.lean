import Sharko.Script.XPath.Values

/-! Document order, node tests and location steps. -/

namespace Sharko.Script.XPath
open Library Rose Address

inductive Axis where
  | ancestor
  | ancestorOrSelf
  | attribute
  | child
  | descendant
  | descendantOrSelf
  | following
  | followingSibling
  | namespaces
  | parent
  | preceding
  | precedingSibling
  | self
deriving DecidableEq

def Axis.reverse : Axis → Bool
  | .ancestor | .ancestorOrSelf | .preceding | .precedingSibling => true
  | _ => false

def Axis.keepsOrder : Axis → Bool
  | .attribute | .self => true
  | _ => false

structure NameTest where
  l : JsString
  lower : JsString
  ns : Option JsString
  any : Bool
deriving DecidableEq

inductive Test where
  | node
  | text
  | comment
  | pi (target : Option JsString)
  | name (t : NameTest)
deriving DecidableEq

abbrev Closure (R : Type) := Node → Nat → Nat → Except XPathError (Value R)

structure Step (R : Type) where
  axis : Axis
  test : Test
  preds : List (Closure R)

namespace Document
variable (d : Document)

/-- The element id and the attribute index `docOrder` sorts by. -/
def item : Node → Option Address × Nat
  | .tree id => (some id,0)
  | .attr o =>
    match d.ownerId o with
    | none => (none,0)
    | some owner =>
      let names := d.attrNames owner
      (some owner,if names.contains (d.attr o).name then 1 + names.idxOf (d.attr o).name else 0)

/-- The bits of the native `compareDocumentPosition` for the second node. -/
def compareDocumentPosition (this other : Address) : Nat :=
  if this = other then 0
  else if other.isSuffixOf this then 8 + 2
  else if this.isSuffixOf other then 16 + 4
  else
    let a := this.reverse
    let b := other.reverse
    let i := ((a.zip b).takeWhile fun p => p.1 == p.2).length
    if b.getD i 0 < a.getD i 0 then 2 else 4

/-- The comparison of `docOrder` gives no positive number. An orphaned attribute is
never compared: its tree holds no other node. -/
def inOrder (m n : Node) : Bool :=
  let a := d.item m
  let b := d.item n
  if a.1 = b.1 then a.2 ≤ b.2
  else match a.1,b.1 with
    | some x,some y =>
      let r := compareDocumentPosition x y
      r &&& 4 != 0 || r &&& 2 == 0
    | none,_ => true
    | _,none => false

def docOrder (nodes : List Node) : List Node :=
  if nodes.length < 2 then nodes
  else
    let uniq := nodes.eraseDups
    if uniq.length < 2 then uniq else uniq.mergeSort d.inOrder

def elementMatches (id : Address) (t : NameTest) : Bool :=
  if t.any then t.ns.isNone || t.ns == d.elNs id
  else
    let ln := d.elLocal id
    let sameName := ln == t.l
    if !sameName && !(d.htmlMode && asciiLower ln == t.lower) then false
    else
      let ns := d.elNs id
      if d.htmlMode && ns == some namespaceHtml then t.ns.isNone || t.ns == some namespaceHtml
      else sameName && t.ns == ns && (t.ns.isSome || !d.htmlMode)

def attributeMatches (id : Address) (name : JsString) (t : NameTest) : Bool :=
  if d.isNsDecl id name then false
  else
    let parts := if name.contains 58 && name.head? != some 58 then d.attrParts id name
      else (name,none,none)
    let ns := parts.2.1
    if t.any then t.ns.isNone || t.ns == ns
    else if d.htmlMode && t.ns.isNone && ns.isNone && d.elNs id == some namespaceHtml then
      asciiLower parts.1 == t.lower
    else parts.1 == t.l && ns == t.ns

def treeTest (t : Test) (id : Address) : Bool :=
  match t with
  | .node => true
  | .text => d.kindOf id == some .text || d.kindOf id == some .cdata
  | .comment => d.kindOf id == some .comment
  | .pi none => d.kindOf id == some .processingInstruction
  | .pi (some target) => d.kindOf id == some .processingInstruction &&
      (d.dataOf id).map NodeData.target == some target
  | .name t => d.isElement id && d.elementMatches id t

def attrTest (t : Test) (id : Address) (name : JsString) : Bool :=
  match t with
  | .name t => d.attributeMatches id name t
  | .node => !d.isNsDecl id name
  | _ => false

mutual

/-- Descendants in document order that pass the test; only elements are descended into. -/
def descend (test : Address → Bool) : Rose NodeData → Address → List Address
  | .node _ children, id => descendFrom test children 0 id

def descendFrom (test : Address → Bool) : List (Rose NodeData) → Nat → Address → List Address
  | [],_,_ => []
  | c :: rest,i,id =>
    (if test (i :: id) then [i :: id] else []) ++
      (if c.data.nodeType = .element then descend test c (i :: id) else []) ++
      descendFrom test rest (i + 1) id

end

def descendAt (test : Address → Bool) (id : Address) : List Address :=
  (d.root.at? id).elim [] fun s => descend test s id

def siblingRun (test : Address → Bool) (s : Address) : List Address :=
  (if test s then [s] else []) ++ if d.isElement s then d.descendAt test s else []

def following (test : Address → Bool) : Address → List Address
  | [] => []
  | i :: up => (d.root.laterSiblings (i :: up)).flatMap (d.siblingRun test) ++ following test up

def preceding (test : Address → Bool) : Address → List Address
  | [] => []
  | i :: up =>
    (earlierSiblings (i :: up)).flatMap (fun s => (d.siblingRun test s).reverse) ++ preceding test up

def hasChildren (id : Address) : Bool := ((d.kindOf id).map NodeType.hasChildren).getD false

def collectTree (axis : Axis) (test : Address → Bool) (id : Address) : List Address :=
  match axis with
  | .child =>
    if d.hasChildren id then ((List.range (d.root.childCount id)).map (· :: id)).filter test else []
  | .descendant => if d.hasChildren id then d.descendAt test id else []
  | .descendantOrSelf =>
    (if test id then [id] else []) ++ if d.hasChildren id then d.descendAt test id else []
  | .self => [id].filter test
  | .parent => id.ancestors.take 1 |>.filter test
  | .ancestor => id.ancestors.filter test
  | .ancestorOrSelf => (id :: id.ancestors).filter test
  | .followingSibling => (d.root.laterSiblings id).filter test
  | .precedingSibling => (earlierSiblings id).filter test
  | .following => d.following test id
  | .preceding => d.preceding test id
  | .attribute | .namespaces => []

def collectAttributes (test : Test) (id : Address) : List Node :=
  if d.isElement id then
    ((d.attrNames id).filter (d.attrTest test id)).map fun name => .attr (d.attrNode id name)
  else []

/-- An attribute has no children, siblings or attributes; its parent is its element. -/
def collectFromAttr (axis : Axis) (test : Test) (o : Nat) : List Node :=
  let self : List Node := if test = .node then [.attr o] else []
  let tree := d.treeTest test
  let owner := (d.ownerId o).toList
  match axis with
  | .self | .descendantOrSelf => self
  | .parent => (owner.filter tree).map .tree
  | .ancestor => ((owner.flatMap fun id => id :: id.ancestors).filter tree).map .tree
  | .ancestorOrSelf => self ++ ((owner.flatMap fun id => id :: id.ancestors).filter tree).map .tree
  | .following => (owner.flatMap (d.following tree)).map .tree
  | .preceding => (owner.flatMap (d.preceding tree)).map .tree
  | _ => []

def collect (axis : Axis) (test : Test) : Node → List Node
  | .tree id =>
    if axis = .attribute then d.collectAttributes test id
    else (d.collectTree axis (d.treeTest test) id).map .tree
  | .attr o => d.collectFromAttr axis test o

end Document

section
variable {R : Type} [JsNumber R] (d : Document)

def selects (v : Value R) (position : Nat) : Bool :=
  match v with
  | .number v => JsNumber.eq v (JsNumber.ofNat position)
  | v => toBool v

def applyFrom (pred : Closure R) (size : Nat) : Nat → List Node → Except XPathError (List Node)
  | _,[] => .ok []
  | i,n :: rest => do
    let v ← pred n (i + 1) size
    let out ← applyFrom pred size (i + 1) rest
    return if selects v (i + 1) then n :: out else out

def applyPredicate (list : List Node) (pred : Closure R) : Except XPathError (List Node) :=
  applyFrom pred list.length 0 list

def applyPredicates : List (Closure R) → List Node → Except XPathError (List Node)
  | [],list => .ok list
  | pred :: rest,list =>
    if list.isEmpty then .ok list
    else do
      let list ← applyPredicate list pred
      applyPredicates rest list

def stepFrom (step : Step R) (node : Node) : Except XPathError (List Node) := do
  let list ← applyPredicates step.preds (d.collect step.axis step.test node)
  return if step.axis.reverse then list.reverse else list

def Node.id? : Node → Option Address
  | .tree id => some id
  | .attr _ => none

def endsFirst (best : Address) (input : List Address) : Address :=
  input.foldl (fun best id => if best.isSuffixOf id then id else best) best

def reduceInputs (step : Step R) (input : List Node) : List Node :=
  if !step.preds.isEmpty || (step.axis != .following && step.axis != .preceding) then input
  else match input.mapM Node.id? with
    | none => input
    | some [] => input
    | some (first :: rest) =>
      if step.axis = .preceding then [.tree ((first :: rest).getLastD first)]
      else [.tree (endsFirst first rest)]

def evalStep (step : Step R) (input : List Node) : Except XPathError (List Node) := do
  let input := if input.length > 1 then reduceInputs step input else input
  match input with
  | [n] => stepFrom d step n
  | input =>
    let out ← input.mapM (stepFrom d step)
    return if step.axis.keepsOrder then out.flatten else d.docOrder out.flatten

end

end Sharko.Script.XPath
