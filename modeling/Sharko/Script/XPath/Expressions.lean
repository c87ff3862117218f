import Sharko.Script.XPath.Steps

/-! Expressions and their compilation to closures. What the parser makes of a source text
is the input here. -/

namespace Sharko.Script.XPath
open Library

inductive Function where
  | last
  | position
  | count
  | id
  | localName
  | namespaceUri
  | name
  | string
  | concat
  | startsWith
  | contains
  | substringBefore
  | substringAfter
  | substring
  | stringLength
  | normalizeSpace
  | translate
  | boolean
  | not
  | true
  | false
  | lang
  | number
  | sum
  | floor
  | ceiling
  | round
deriving DecidableEq

inductive StaticType where
  | number
  | string
  | boolean
  | nodeset
deriving DecidableEq

def Function.type : Function → StaticType
  | .last | .position | .count | .stringLength | .number | .sum | .floor | .ceiling | .round => .number
  | .id => .nodeset
  | .localName | .namespaceUri | .name | .string | .concat | .substringBefore | .substringAfter
  | .substring | .normalizeSpace | .translate => .string
  | .startsWith | .contains | .boolean | .not | .true | .false | .lang => .boolean

inductive Arithmetic where
  | add
  | sub
  | mul
  | div
  | mod
deriving DecidableEq

mutual

inductive Expr (R : Type) where
  | num (v : R)
  | str (v : JsString)
  | or (a b : Expr R)
  | and (a b : Expr R)
  | cmp (op : Comparison) (a b : Expr R)
  | neg (a : Expr R)
  | arith (op : Arithmetic) (a b : Expr R)
  | union (first : Expr R) (rest : List (Expr R))
  | call (function : Function) (args : List (Expr R))
  | filter (e : Expr R) (preds : List (Expr R))
  | path (start : Option (Expr R)) (abs : Bool) (steps : List (StepExpr R))

inductive StepExpr (R : Type) where
  | descendantOrSelf
  | step (axis : Axis) (test : Test) (preds : List (Expr R))

end

variable {R : Type}

def staticType : Expr R → StaticType
  | .num _ | .arith _ _ _ | .neg _ => .number
  | .str _ => .string
  | .or _ _ | .and _ _ | .cmp _ _ _ => .boolean
  | .call function _ => function.type
  | .union _ _ | .filter _ _ | .path _ _ _ => .nodeset

mutual

/-- Whether the value depends on the context position or size; nested predicates count. -/
def usesPosition : Expr R → Bool
  | .num _ | .str _ => false
  | .or a b | .and a b | .cmp _ a b | .arith _ a b => usesPosition a || usesPosition b
  | .neg a => usesPosition a
  | .union first rest => usesPosition first || anyUsesPosition rest
  | .call function args => function == .position || function == .last || anyUsesPosition args
  | .filter e preds => usesPosition e || anyUsesPosition preds
  | .path start _ steps => startUsesPosition start || stepsUsePosition steps

def anyUsesPosition : List (Expr R) → Bool
  | [] => false
  | a :: rest => usesPosition a || anyUsesPosition rest

def startUsesPosition : Option (Expr R) → Bool
  | none => false
  | some a => usesPosition a

def stepsUsePosition : List (StepExpr R) → Bool
  | [] => false
  | .descendantOrSelf :: rest => stepsUsePosition rest
  | .step _ _ preds :: rest => anyUsesPosition preds || stepsUsePosition rest

end

def positional (pred : Expr R) : Bool := staticType pred == .number || usesPosition pred

/-- The steps are `//` and a child step whose predicates do not care about the position. -/
def merges : StepExpr R → List (StepExpr R) → Bool
  | .descendantOrSelf,.step axis _ preds :: _ => axis == .child && !preds.any positional
  | _,_ => false

section
variable [JsNumber R] (d : Document)

def constant (v : Value R) : Closure R := fun _ _ _ => .ok v

def strict (f : List (Value R) → Node → Except XPathError (Value R)) (args : List (Closure R)) :
    Closure R :=
  fun n p s => do f (← args.mapM fun a => a n p s) n

def nameFn (pick : JsString × Option JsString × Option JsString → JsString) :
    List (Value R) → Node → Except XPathError (Value R)
  | [],n => .ok (.string (((d.nameParts n).map pick).getD []))
  | [.nodes (m :: _)],_ => .ok (.string (((d.nameParts m).map pick).getD []))
  | [_],_ => .ok (.string [])
  | _,_ => .error .arity

def stringArg (f : JsString → Value R) : List (Value R) → Node → Except XPathError (Value R)
  | [],n => .ok (f (d.stringValue n))
  | [v],_ => .ok (f (toStr d v))
  | _,_ => .error .arity

def unary (f : Value R → Value R) : List (Value R) → Node → Except XPathError (Value R)
  | [v],_ => .ok (f v)
  | _,_ => .error .arity

def binary (f : JsString → JsString → Value R) : List (Value R) → Node → Except XPathError (Value R)
  | [a,b],_ => .ok (f (toStr d a) (toStr d b))
  | _,_ => .error .arity

def indexOf (x y : JsString) : Option Nat :=
  (List.range (x.length + 1)).find? fun i => y.isPrefixOf (x.drop i)

def normalizeText (s : JsString) : JsString :=
  js " " |>.intercalate ((s.splitOnP isSpace).filter fun word => !word.isEmpty)

def translateText (x source target : JsString) : JsString :=
  x.flatMap fun c =>
    let j := source.idxOf c
    if j = source.length then [c] else (target[j]?).toList

/-- The characters at the positions p with round(start) ≤ p < round(start) + round(length). -/
def slice (x : JsString) (start : R) (length : Option R) : JsString :=
  let start := JsNumber.round start
  let stop := (length.map fun l => JsNumber.add start (JsNumber.round l)).getD JsNumber.infinity
  if isNaN start || isNaN stop then []
  else
    let one := JsNumber.ofNat 1
    let last := JsNumber.ofNat (x.length + 1)
    let first := if JsNumber.lt start one then one else start
    let stop := if JsNumber.lt last stop then last else stop
    if JsNumber.lt first stop then
      (x.drop (JsNumber.toIndex first - 1)).take (JsNumber.toIndex stop - JsNumber.toIndex first)
    else []

def langMatches (want : JsString) (n : Node) : Bool :=
  match d.xmlLang n with
  | none => false
  | some found =>
    let h := asciiLower found
    let want := asciiLower want
    h == want || (want ++ js "-").isPrefixOf h

def idFn : List (Value R) → Node → Except XPathError (Value R)
  | [v],n =>
    let list := match v with
      | .nodes set => (js " ").intercalate (set.map d.stringValue)
      | v => toStr d v
    let found := match d.rootOf n with
      | .tree _ => (list.splitOnP isSpace).filterMap d.elementById
      | .attr _ => []
    .ok (.nodes (d.docOrder (found.map .tree)))
  | _,_ => .error .arity

def Function.make (f : Function) (args : List (Closure R)) : Closure R :=
  match f with
  | .last => fun _ _ s => .ok (.number (JsNumber.ofNat s))
  | .position => fun _ p _ => .ok (.number (JsNumber.ofNat p))
  | .true => constant (.boolean Bool.true)
  | .false => constant (.boolean Bool.false)
  | .count => strict (fun args _ => match args with
      | [v] => do return .number (JsNumber.ofNat (← nodeSetOf v).length)
      | _ => .error .arity) args
  | .id => strict (idFn d) args
  | .localName => strict (nameFn d fun p => p.1) args
  | .namespaceUri => strict (nameFn d fun p => p.2.1.getD []) args
  | .name => strict (nameFn d fun p => (p.2.2.map fun pre => pre ++ js ":" ++ p.1).getD p.1) args
  | .string => strict (stringArg d .string) args
  | .concat => strict (fun args _ => .ok (.string (args.flatMap (toStr d)))) args
  | .startsWith => strict (binary d fun x y => .boolean (y.isPrefixOf x)) args
  | .contains => strict (binary d fun x y => .boolean (indexOf x y).isSome) args
  | .substringBefore => strict (binary d fun x y => .string (((indexOf x y).map x.take).getD [])) args
  | .substringAfter => strict (binary d fun x y =>
      .string (((indexOf x y).map fun i => x.drop (i + y.length)).getD [])) args
  | .substring => strict (fun args _ => match args with
      | [x,start] => .ok (.string (slice (toStr d x) (toNum d start) none))
      | [x,start,length] => .ok (.string (slice (toStr d x) (toNum d start) (some (toNum d length))))
      | _ => .error .arity) args
  | .stringLength => strict (stringArg d fun x => .number (JsNumber.ofNat x.length)) args
  | .normalizeSpace => strict (stringArg d fun x => .string (normalizeText x)) args
  | .translate => strict (fun args _ => match args with
      | [x,source,target] => .ok (.string (translateText (toStr d x) (toStr d source) (toStr d target)))
      | _ => .error .arity) args
  | .boolean => strict (unary fun v => .boolean (toBool v)) args
  | .not => strict (unary fun v => .boolean (!toBool v)) args
  | .lang => strict (fun args n => match args with
      | [v] => .ok (.boolean (langMatches d (toStr d v) n))
      | _ => .error .arity) args
  | .number => strict (fun args n => match args with
      | [] => .ok (.number (strToNum (d.stringValue n)))
      | [v] => .ok (.number (toNum d v))
      | _ => .error .arity) args
  | .sum => strict (unary fun v => match v with
      | .nodes set => .number (set.foldl (fun sum n =>
          JsNumber.add sum (strToNum (d.stringValue n))) (JsNumber.ofNat 0))
      | _ => .number (JsNumber.ofNat 0)) args
  | .floor => strict (unary fun v => .number (JsNumber.floor (toNum d v))) args
  | .ceiling => strict (unary fun v => .number (JsNumber.ceil (toNum d v))) args
  | .round => strict (unary fun v => .number (JsNumber.round (toNum d v))) args

def arithmetic : Arithmetic → R → R → R
  | .add => JsNumber.add
  | .sub => JsNumber.sub
  | .mul => JsNumber.mul
  | .div => JsNumber.div
  | .mod => JsNumber.rem

def unionFrom (n : Node) (p s : Nat) : List Node → List (Closure R) → Except XPathError (List Node)
  | all,[] => .ok all
  | all,part :: rest => do
    let set ← nodeSetOf (← part n p s)
    unionFrom n p s (d.docOrder (all ++ set)) rest

def evalSteps : List (Step R) → List Node → Except XPathError (List Node)
  | [],cur => .ok cur
  | step :: rest,cur =>
    if cur.isEmpty then .ok cur
    else do
      let cur ← evalStep d step cur
      evalSteps rest cur

mutual

def compile : Expr R → Closure R
  | .num v => constant (.number v)
  | .str v => constant (.string v)
  | .or a b => fun n p s => do
    if toBool (← compile a n p s) then return .boolean Bool.true
    return .boolean (toBool (← compile b n p s))
  | .and a b => fun n p s => do
    if !toBool (← compile a n p s) then return .boolean Bool.false
    return .boolean (toBool (← compile b n p s))
  | .cmp op a b => fun n p s => do
    let x ← compile a n p s
    let y ← compile b n p s
    return .boolean (compare d op x y)
  | .neg a => fun n p s => do return .number (JsNumber.neg (toNum d (← compile a n p s)))
  | .arith op a b => fun n p s => do
    let x ← compile a n p s
    let y ← compile b n p s
    return .number (arithmetic op (toNum d x) (toNum d y))
  | .union first rest => fun n p s => do
    let all ← nodeSetOf (← compile first n p s)
    return .nodes (← unionFrom d n p s all (compileAll rest))
  | .call function args => function.make d (compileAll args)
  | .filter e preds => fun n p s => do
    let list ← nodeSetOf (← compile e n p s)
    return .nodes (← applyPredicates (compileAll preds) list)
  | .path start abs steps => fun n p s => do
    let cur ← compileStart start abs n p s
    return .nodes (← evalSteps d (compileSteps steps) cur)

def compileStart : Option (Expr R) → Bool → Node → Nat → Nat → Except XPathError (List Node)
  | none,abs => fun n _ _ => .ok [if abs then d.rootOf n else n]
  | some start,_ => fun n p s => do nodeSetOf (← compile start n p s)

def compileAll : List (Expr R) → List (Closure R)
  | [] => []
  | a :: rest => compile a :: compileAll rest

def compileStep : StepExpr R → Step R
  | .descendantOrSelf => ⟨.descendantOrSelf,.node,[]⟩
  | .step axis test preds => ⟨axis,test,compileAll preds⟩

/-- `mergeDescendantSteps` and `compileStep`: a merged step is the child step on the
descendant axis. -/
def compileSteps : List (StepExpr R) → List (Step R)
  | [] => []
  | step :: rest =>
    if merges step rest then
      match compileSteps rest with
      | next :: later => {next with axis := .descendant} :: later
      | [] => []
    else compileStep step :: compileSteps rest

end

end

end Sharko.Script.XPath
