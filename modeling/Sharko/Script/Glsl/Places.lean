import Mathlib.Data.List.Nodup
import Sharko.Library.Logged

/-! The l-values of shaders and the JavaScript that reads and stores them, with a record of every index
that is evaluated and of every element that is read or written. -/

namespace Sharko.Script.Glsl

open Sharko.Library
open Logged (log stop act look change)

inductive Info where
  | scalar (base : String)
  | vec (base : String) (n : ℕ)
  | mat (cols rows : ℕ)
  | array (elem : String) (len : ℕ)
  | struct (fields : List (String × String))
  | sampler
  | void
  deriving DecidableEq

def pfx (base : String) : String :=
  if base = "int" then "i" else if base = "uint" then "u" else if base = "bool" then "b" else ""

def vecName (base : String) (n : ℕ) : String :=
  if n = 1 then base else pfx base ++ "vec" ++ toString n

def parseSwizzle (name : String) (n : ℕ) : Option (List ℕ) :=
  match ["stpq","rgba","xyzw"].find? fun set => name.toList.head?.any set.toList.contains with
  | none => none
  | some set =>
    if name.length > 4 then none
    else name.toList.mapM fun ch =>
      let i := set.toList.idxOf ch
      if i < n then some i else none

structure Machine where
  Value : Type
  State : Type
  read : String → State → Value
  write : String → Value → State → State
  get : Value → String ⊕ Int → State → Value
  put : Value → String ⊕ Int → Value → State → State
  array : List Value → State → Value × State
  box : Value → State → Value × State
  cp : Value → State → Value × State

/-- A part of a variable, by the fields and the indices that lead to it. -/
structure Element where
  root : String
  path : List (String ⊕ Int)
  deriving DecidableEq

inductive Event where
  /-- The index behind so many others of the l-value of an argument. -/
  | index (arg depth : ℕ)
  | read (arg : ℕ) (e : Element)
  | write (arg : ℕ) (e : Element)
  deriving DecidableEq

abbrev Code (m : Machine) (α : Type) : Type := Logged m.State Event α

structure Index (m : Machine) where
  t : String
  js : m.State → Int × m.State

inductive Expr (m : Machine) where
  | id (name : String)
  | field (e : Expr m) (name : String)
  | index (e : Expr m) (i : Index m)

structure Variable where
  js : String
  box : Bool
  t : String
  writable : Bool

inductive Accessor (m : Machine) where
  | prop (name : String)
  | elem (depth : ℕ) (js : m.State → Int × m.State)

/-- A variable with accessors behind it; without a root the text starts with `undefined`. -/
structure Ref (m : Machine) where
  root : Option String
  path : List (Accessor m)

inductive Place (m : Machine) where
  | js (ref : Ref m) (t : String)
  | swz (comps : List ℕ) (base : Ref m) (t : String)
  | col (base : Ref m) (depth : ℕ) (idx : m.State → Int × m.State) (rows : ℕ) (t : String)

/-- What the checker knows at a place of the shader. -/
structure Scope where
  info : String → Option Info
  lookup : String → Option Variable

namespace Expr

variable {m : Machine}

def indices : Expr m → ℕ
  | id _ => 0
  | field e _ => e.indices
  | index e _ => e.indices + 1

variable (scope : Scope)

def exprType : Expr m → Option String
  | id name => (scope.lookup name).map (·.t)
  | field e name =>
    match e.exprType.bind scope.info with
    | some (.struct fields) => fields.lookup name
    | some (.vec base n) => (parseSwizzle name n).map fun sw => vecName base sw.length
    | _ => none
  | index e _ =>
    match e.exprType.bind scope.info with
    | some (.vec base _) => some base
    | some (.array elem _) => some elem
    | some (.mat _ rows) => some (vecName "float" rows)
    | _ => none

end Expr

namespace Place

variable {m : Machine}

def t : Place m → String
  | js _ t => t
  | swz _ _ t => t
  | col _ _ _ _ t => t

/-- The text that stands for the place in a longer one; a column has none. -/
def text : Place m → Ref m
  | js ref _ => ref
  | swz _ _ _ | col _ _ _ _ _ => ⟨none,[]⟩

end Place

variable {m : Machine}

/-- None where the compiler rejects the l-value. -/
def place (scope : Scope) : Expr m → Option (Place m)
  | .id name => do
    let r ← scope.lookup name
    if !r.writable then none
    else some (.js ⟨some r.js,if r.box then [.prop "v"] else []⟩ r.t)
  | .field e name =>
    match (e.exprType scope).bind scope.info with
    | some (.struct fields) => do
      let t ← fields.lookup name
      match ← place scope e with
      | .js ref _ => some (.js ⟨ref.root,ref.path ++ [.prop ("f_" ++ name)]⟩ t)
      | _ => none
    | some (.vec base n) => do
      let sw ← parseSwizzle name n
      if !sw.Nodup then none
      else
        match ← place scope e with
        | .js ref _ => some (.swz sw ref (if sw.length = 1 then base else vecName base sw.length))
        | _ => none
    | _ => none
  | .index e i =>
    if i.t ≠ "int" ∧ i.t ≠ "uint" then none
    else do
      let bp ← place scope e
      match bp with
      | .swz _ _ _ => none
      | _ =>
        let ref : Ref m := ⟨bp.text.root,bp.text.path ++ [.elem e.indices i.js]⟩
        match (e.exprType scope).bind scope.info with
        | some (.vec base _) => some (.js ref base)
        | some (.array elem _) => some (.js ref elem)
        | some (.mat _ rows) => some (.col bp.text e.indices i.js rows (vecName "float" rows))
        | _ => none

inductive Target (m : Machine) where
  | undefined
  | var (x : String)
  | member (v : m.Value) (key : String ⊕ Int)
  | memberOfUndefined

namespace Target

def getValue : Target m → Code m m.Value
  | var x => look (m.read x)
  | member v key => look (m.get v key)
  | undefined | memberOfUndefined => stop

def putValue (v : m.Value) : Target m → Code m Unit
  | var x => change (m.write x v)
  | member o key => change (m.put o key v)
  | undefined | memberOfUndefined => stop

end Target

variable (arg : ℕ)

def Accessor.key : Accessor m → Code m (String ⊕ Int)
  | prop name => pure (.inl name)
  | elem depth js => do
    log [.index arg depth]
    let i ← act js
    pure (.inr i)

def Accessor.evaluate (at_ : Target m × Element) (a : Accessor m) : Code m (Target m × Element) :=
  match at_.1 with
  | .undefined => do
    let key ← a.key arg
    pure (.memberOfUndefined,⟨at_.2.root,at_.2.path ++ [key]⟩)
  | target => do
    let v ← target.getValue
    let key ← a.key arg
    pure (.member v key,⟨at_.2.root,at_.2.path ++ [key]⟩)

def Ref.start (ref : Ref m) : Target m × Element :=
  match ref.root with
  | some x => (.var x,⟨x,[]⟩)
  | none => (.undefined,⟨"undefined",[]⟩)

def Ref.evaluate (ref : Ref m) : Code m (Target m × Element) :=
  ref.path.foldlM (Accessor.evaluate arg) ref.start

def Element.parts (e : Element) (keys : List Int) : List Element :=
  keys.map fun k => ⟨e.root,e.path ++ [.inr k]⟩

def readParts (base : Ref m) (keys : Code m (List Int)) (result : m.Value → List Int → Code m m.Value) :
    Code m m.Value := do
  let (target,e) ← base.evaluate arg
  let v ← target.getValue
  let keys ← keys
  log ((e.parts keys).map (.read arg))
  result v keys

/-- The object, what the keys are made of, the value, and then one property after the other. -/
def storeParts (base : Ref m) (keys : Code m (List Int)) (value : Code m m.Value)
    (part : m.Value → ℕ → m.State → m.Value) : Code m m.Value := do
  let (target,e) ← base.evaluate arg
  let v ← target.getValue
  let keys ← keys
  let x ← value
  log ((e.parts keys).map (.write arg))
  change fun s => keys.zipIdx.foldl (fun s (key,k) => m.put v (.inr key) (part x k s) s) s
  pure x

def columnKeys (depth : ℕ) (idx : m.State → Int × m.State) (rows : ℕ) : Code m (List Int) := do
  log [.index arg depth]
  let i ← act idx
  pure ((List.range rows).map fun j => i * rows + j)

def swzKeys (comps : List ℕ) : Code m (List Int) := pure (comps.map Int.ofNat)

def swzValue (v : m.Value) (keys : List Int) : Code m m.Value :=
  match keys with
  | [k] => look (m.get v (.inr k))
  | keys => act fun s => m.array (keys.map fun k => m.get v (.inr k) s) s

def placeRead : Place m → Code m m.Value
  | .js ref _ => do
    let (target,e) ← ref.evaluate arg
    log [.read arg e]
    target.getValue
  | .swz comps base _ => readParts arg base (swzKeys comps) swzValue
  | .col base depth idx rows _ => readParts arg base (columnKeys arg depth idx rows) fun v keys =>
    act fun s => m.array (keys.map fun k => m.get v (.inr k) s) s

def storeTo (pl : Place m) (value : Code m m.Value) (valueType : String) : Option (Code m m.Value) :=
  if pl.t ≠ valueType then none
  else some <|
    match pl with
    | .js ref _ => do
      let (target,e) ← ref.evaluate arg
      let v ← value
      log [.write arg e]
      target.putValue v
      pure v
    | .swz [k] base _ => storeParts arg base (swzKeys [k]) value fun x _ _ => x
    | .swz comps base _ =>
      storeParts arg base (swzKeys comps) value fun x k s => m.get x (.inr k) s
    | .col base depth idx rows _ =>
      storeParts arg base (columnKeys arg depth idx rows) value fun x k s => m.get x (.inr k) s

variable (scope : Scope)

def isNumeric (t : String) : Bool :=
  match scope.info t with
  | some (.scalar base) | some (.vec base _) => base ≠ "bool"
  | some (.mat _ _) => true
  | _ => false

def isAggregate (t : String) : Bool :=
  match scope.info t with
  | some (.vec _ _) | some (.mat _ _) | some (.struct _) | some (.array _ _) => true
  | _ => false

/-- An assignment with an operator, which yields a value of a type. -/
def genCompound (e : Expr m) (rhs : m.State → m.Value × m.State)
    (binary : m.Value → m.Value → m.State → m.Value × m.State) (t : String) :
    Option (Code m m.Value) := do
  let pl ← place scope e
  let value : Code m m.Value := do
    let cur ← placeRead 0 pl
    let rhs ← act rhs
    act (binary cur rhs)
  storeTo 0 pl value t

def genPre (e : Expr m) (binary : m.Value → m.State → m.Value × m.State) : Option (Code m m.Value) := do
  let pl ← place scope e
  let value : Code m m.Value := do
    let cur ← placeRead 0 pl
    act (binary cur)
  if !isNumeric scope pl.t then none else storeTo 0 pl value pl.t

/-- The old value of what is changed in place or replaced. -/
def keep (t : String) (cur : m.Value) : Code m m.Value :=
  if isAggregate scope t then act (m.cp cur) else pure cur

def genPost (e : Expr m) (binary : m.Value → m.State → m.Value × m.State) (temp : String) :
    Option (Code m m.Value) := do
  let pl ← place scope e
  let value : Code m m.Value := do
    let cur ← placeRead 0 pl
    act (binary cur)
  if !isNumeric scope pl.t then none
  else do
    let store ← storeTo 0 pl value pl.t
    some do
      let cur ← placeRead 0 pl
      let old ← keep scope pl.t cur
      change (m.write temp old)
      let _ ← store
      look (m.read temp)

inductive Arg (m : Machine) where
  | inn (js : m.State → m.Value × m.State)
  | out (e : Expr m) (t : String) (zero : m.State → m.Value × m.State)
  | inout (e : Expr m) (t : String)

/-- What an argument adds before the call, in it and behind it. -/
structure Part (m : Machine) where
  pre : Code m Unit := pure ()
  js : Code m m.Value
  post : Code m Unit := pure ()

def Arg.part (j : ℕ) : Arg m → Option (Part m)
  | .inn js => some { js := act js }
  | .out e t zero => boxed e t fun _ => act zero
  | .inout e t => boxed e t fun pl => do
    let cur ← placeRead j pl
    act (m.cp cur)
where
  boxed (e : Expr m) (t : String) (before : Place m → Code m m.Value) : Option (Part m) := do
    let tmp := "$t" ++ toString j
    let pl ← place scope e
    let store ← storeTo j pl (look fun s => m.get (m.read tmp s) (.inl "v") s) t
    some {
      pre := do
        let v ← before pl
        let b ← act (m.box v)
        change (m.write tmp b)
      js := look (m.read tmp)
      post := do
        let _ ← store
        pure () }

def genCall (args : List (Arg m)) (callee : List m.Value → m.State → m.Value × m.State) (rt : String) :
    Option (Code m m.Value) := do
  let parts ← args.zipIdx.mapM fun (a,j) => a.part scope j
  some do
    let _ ← parts.mapM (·.pre)
    let values ← parts.mapM (·.js)
    let r ← act (callee values)
    change (m.write rt r)
    let _ ← parts.mapM (·.post)
    look (m.read rt)

inductive Evaluation (m : Machine) where
  | compound (e : Expr m) (rhs : m.State → m.Value × m.State)
    (binary : m.Value → m.Value → m.State → m.Value × m.State) (t : String)
  | pre (e : Expr m) (binary : m.Value → m.State → m.Value × m.State)
  | post (e : Expr m) (binary : m.Value → m.State → m.Value × m.State) (temp : String)
  | call (args : List (Arg m)) (callee : List m.Value → m.State → m.Value × m.State) (rt : String)

namespace Evaluation

def generate : Evaluation m → Option (Code m m.Value)
  | compound e rhs binary t => genCompound scope e rhs binary t
  | pre e binary => genPre scope e binary
  | post e binary temp => genPost scope e binary temp
  | call args callee rt => genCall scope args callee rt

end Evaluation

def Arg.indices : Arg m → ℕ
  | .inn _ => 0
  | .out e _ _ | .inout e _ => e.indices

def Evaluation.indices (ev : Evaluation m) (j : ℕ) : ℕ :=
  match ev with
  | compound e _ _ _ | pre e _ | post e _ _ => if j = 0 then e.indices else 0
  | call args _ _ => args[j]?.elim 0 Arg.indices

/-- Every index is evaluated exactly once, and of the parts of an argument that is read, those are written
that were read. -/
def Once (code : Code m m.Value) (indices : ℕ → ℕ) (s : m.State) : Prop :=
  (code s).2.isSome = true ∧
    (∀ j,∀ d < indices j,(code s).1.count (.index j d) = 1) ∧
    ∀ j,(∃ e,Event.read j e ∈ (code s).1) → ∀ e,Event.read j e ∈ (code s).1 ↔ Event.write j e ∈ (code s).1

end Sharko.Script.Glsl
