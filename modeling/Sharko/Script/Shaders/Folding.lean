import Sharko.Library.Numbers

/-! The compile-time values that the shader compiler records beside the JavaScript of an expression, and
when they are what that JavaScript computes. -/

namespace Sharko.Script.Shaders

open Sharko.Library

inductive Base where
  | float
  | int
  | uint
  | bool
  deriving DecidableEq

/-- Vectors and matrices have components of a base type. -/
inductive Ty where
  | scalar (base : Base)
  | other (name : String) (components : Option Base)
  deriving DecidableEq

inductive Prim where
  | undefined
  | num (x : Number)
  | bool (b : Bool)
  deriving DecidableEq

namespace Prim

def toNumber : Prim → Number
  | undefined => .nan
  | num x => x
  | bool b => .ofInt (if b then 1 else 0)

def truthy : Prim → Bool
  | undefined => false
  | num x => !(x.isNaN || x.isZero)
  | bool b => b

/-- The operator `===`; values of different kinds differ. -/
def strictEq : Prim → Prim → Bool
  | num x,num y => x.eq y
  | bool a,bool b => a == b
  | undefined,undefined => true
  | _,_ => false

end Prim

inductive BinOp where
  | add | sub | mul | div | mod
  | lt | gt | le | ge | eq | ne
  | and | or | xor
  | bitAnd | bitOr | bitXor | shl | shr
  deriving DecidableEq

/-- The JavaScript of an expression; `code` is that of a form which records no value. -/
inductive Js where
  | lit (p : Prim)
  | var (k : ℕ)
  | code (k : ℕ)
  | first (e : Js)
  | not (e : Js)
  | bitNot (e : Js)
  | neg (e : Js)
  | toInt (e : Js)
  | toUint (e : Js)
  | bin (op : BinOp) (a b : Js)
  | imul (a b : Js)
  | idiv (a b : Js)
  | udiv (a b : Js)
  | imod (a b : Js) (u : Bool)
  | low5 (e : Js)
  | ushr (a b : Js)
  | oneOrZero (e : Js)
  | notZero (e : Js)
  | f2i (e : Js) (u : Bool)

structure Env where
  var : ℕ → Prim
  code : ℕ → Prim
  component : ℕ → Prim

def binary (op : BinOp) (a b : Prim) : Prim :=
  let x := a.toNumber
  let y := b.toNumber
  match op with
  | .add => .num (x.add y)
  | .sub => .num (x.sub y)
  | .mul => .num (x.mul y)
  | .div => .num (x.div y)
  | .mod => .num (x.rem y)
  | .lt => .bool (x.lt y)
  | .gt => .bool (y.lt x)
  | .le => .bool (x.le y)
  | .ge => .bool (y.le x)
  | .eq => .bool (a.strictEq b)
  | .ne | .xor => .bool (!a.strictEq b)
  | .and => if a.truthy then b else a
  | .or => if a.truthy then a else b
  | .bitAnd => .num (.ofSigned (x.bits &&& y.bits))
  | .bitOr => .num (.ofSigned (x.bits ||| y.bits))
  | .bitXor => .num (.ofSigned (x.bits ^^^ y.bits))
  | .shl => .num (.ofSigned (x.bits <<< (y.bits.toNat % 32)))
  | .shr => .num (.ofSigned (x.bits.sshiftRight (y.bits.toNat % 32)))

def f2i (x : Number) (u : Bool) : Number := if u then x.trunc.toUint32 else x.trunc.toInt32

def idiv (a b : Number) : Number := if b.eq (.ofInt 0) then .ofInt 0 else (a.div b).toInt32

def udiv (a b : Number) : Number :=
  if b.eq (.ofInt 0) then .ofInt 0xffffffff else (a.div b).floor.toUint32

def imod (a b : Number) (u : Bool) : Number :=
  if b.eq (.ofInt 0) then .ofInt 0
  else if u then (a.rem b).toUint32 else (a.rem b).toInt32

namespace Js

def eval (env : Env) : Js → Prim
  | lit p => p
  | var k => env.var k
  | code k => env.code k
  | first (code k) => env.component k
  | first _ => .undefined
  | not e => .bool (!(e.eval env).truthy)
  | bitNot e => .num (.ofSigned (~~~(e.eval env).toNumber.bits))
  | neg e => .num (e.eval env).toNumber.neg
  | toInt e => .num (e.eval env).toNumber.toInt32
  | toUint e => .num (e.eval env).toNumber.toUint32
  | bin op a b => binary op (a.eval env) (b.eval env)
  | imul a b => .num ((a.eval env).toNumber.imul (b.eval env).toNumber)
  | idiv a b => .num (Shaders.idiv (a.eval env).toNumber (b.eval env).toNumber)
  | udiv a b => .num (Shaders.udiv (a.eval env).toNumber (b.eval env).toNumber)
  | imod a b u => .num (Shaders.imod (a.eval env).toNumber (b.eval env).toNumber u)
  | low5 e => .num (.ofSigned ((e.eval env).toNumber.bits &&& 31))
  | ushr a b =>
    .num (.ofUnsigned ((a.eval env).toNumber.bits >>> ((b.eval env).toNumber.bits.toNat % 32)))
  | oneOrZero e => .num (.ofInt (if (e.eval env).truthy then 1 else 0))
  | notZero e => .bool (!(e.eval env).strictEq (.num (.ofInt 0)))
  | f2i e u => .num (Shaders.f2i (e.eval env).toNumber u)

end Js

/-- A number as the lexer reads it: not negative, and infinite where it is too large. -/
structure Literal where
  value : Number
  read : value = .infinity false ∨ ∃ q : ℚ,0 ≤ q ∧ value = .finite q

inductive UnOp where
  | not
  | bitNot
  | plus
  | minus
  deriving DecidableEq

/-- `other` is an expression of any other form, or with an operand that is no scalar. -/
inductive Expr where
  | num (v : Literal) (type : Base)
  | bool (v : Bool)
  | id (name : String)
  | un (op : UnOp) (e : Expr)
  | bin (op : BinOp) (l r : Expr)
  | ctor (type : Base) (arg : Expr)
  | length (len : ℕ)
  | other (t : Ty) (code : ℕ)

structure Result where
  js : Js
  t : Ty
  cv : Option Prim := none

/-- What is known of a name: its code, its type and, for a constant, its value. -/
abbrev Scope := String → Option Result

def wrap (js : Js) : Base → Js
  | .int => .toInt js
  | .uint => .toUint js
  | _ => js

def genBinary (es3 : Bool) (op : BinOp) (a b : Result) : Option Result :=
  match a.t,b.t with
  | .scalar ta,.scalar tb =>
    let isInt := ta = .int ∨ ta = .uint
    match op with
    | .add | .sub =>
      if ta = .bool ∨ ta ≠ tb then none else some ⟨wrap (.bin op a.js b.js) ta,.scalar ta,none⟩
    | .mul =>
      if ta = .bool ∨ ta ≠ tb then none
      else match ta with
        | .int => some ⟨.imul a.js b.js,.scalar ta,none⟩
        | .uint => some ⟨.toUint (.imul a.js b.js),.scalar ta,none⟩
        | _ => some ⟨.bin op a.js b.js,.scalar ta,none⟩
    | .div =>
      if ta = .bool ∨ ta ≠ tb then none
      else match ta with
        | .int => some ⟨.idiv a.js b.js,.scalar ta,none⟩
        | .uint => some ⟨.udiv a.js b.js,.scalar ta,none⟩
        | _ => some ⟨.bin op a.js b.js,.scalar ta,none⟩
    | .mod =>
      if ¬ isInt ∨ ta ≠ tb then none
      else some ⟨.imod a.js b.js (decide (ta = .uint)),.scalar ta,none⟩
    | .lt | .gt | .le | .ge =>
      if ta ≠ tb ∨ ta = .bool then none else some ⟨.bin op a.js b.js,.scalar .bool,none⟩
    | .eq | .ne => if ta ≠ tb then none else some ⟨.bin op a.js b.js,.scalar .bool,none⟩
    | .and | .or | .xor =>
      if ta ≠ .bool ∨ tb ≠ .bool then none else some ⟨.bin op a.js b.js,.scalar .bool,none⟩
    | .bitAnd | .bitOr | .bitXor =>
      if !es3 ∨ ¬ isInt ∨ ta ≠ tb then none
      else some ⟨wrap (.bin op a.js b.js) ta,.scalar ta,none⟩
    | .shl | .shr =>
      if !es3 ∨ ¬ isInt ∨ ¬ (tb = .int ∨ tb = .uint) then none
      else if op = .shr ∧ ta = .uint then some ⟨wrap (.ushr a.js (.low5 b.js)) ta,.scalar ta,none⟩
      else some ⟨wrap (.bin op a.js (.low5 b.js)) ta,.scalar ta,none⟩
  | _,_ => none

def foldBinary (op : BinOp) (a b : Result) : Option Prim :=
  match a.cv,b.cv with
  | some x,some y =>
    if a.t = b.t ∧ (a.t = .scalar .int ∨ a.t = .scalar .uint) ∧ (op = .add ∨ op = .sub ∨ op = .mul) then
      let v := match op with
        | .add => x.toNumber.add y.toNumber
        | .sub => x.toNumber.sub y.toNumber
        | _ => x.toNumber.imul y.toNumber
      some (.num (if a.t = .scalar .int then v.toInt32 else v.toUint32))
    else if a.t = b.t ∧ a.t = .scalar .int ∧ op = .div ∧ !y.strictEq (.num (.ofInt 0)) then
      some (.num (x.toNumber.div y.toNumber).toInt32)
    else none
  | _,_ => none

def convertScalar (js : Js) (source target : Base) : Js :=
  if source = target then js
  else if source = .bool then .oneOrZero js
  else if target = .bool then .notZero js
  else if target = .float then js
  else .f2i js (decide (target = .uint))

def foldCtor (target : Base) (v : Prim) : Prim :=
  match target with
  | .float => .num v.toNumber
  | .bool => .bool (!v.strictEq (.num (.ofInt 0)))
  | .int => .num v.toNumber.trunc.toInt32
  | .uint => .num v.toNumber.trunc.toUint32

def genUnary (es3 : Bool) (op : UnOp) (e : Result) : Option Result :=
  match e.t with
  | .other _ _ => none
  | .scalar base =>
    match op with
    | .not =>
      if base ≠ .bool then none
      else some ⟨.not e.js,.scalar .bool,e.cv.map fun v => .bool (!v.truthy)⟩
    | .bitNot =>
      if !es3 ∨ ¬ (base = .int ∨ base = .uint) then none
      else some ⟨wrap (.bitNot e.js) base,e.t,none⟩
    | .plus => if base = .bool then none else some ⟨e.js,e.t,e.cv⟩
    | .minus =>
      if base = .bool then none
      else some ⟨wrap (.neg e.js) base,e.t,e.cv.map fun v => .num <|
        match base with
        | .int => v.toNumber.neg.toInt32
        | .uint => v.toNumber.neg.toUint32
        | _ => v.toNumber.neg⟩

/-- The constructor of a scalar takes the first component of a vector or a matrix. -/
def genCtor (type : Base) (a : Result) : Option Result :=
  match a.t with
  | .scalar base => some ⟨convertScalar a.js base type,.scalar type,a.cv.map (foldCtor type)⟩
  | .other _ (some base) => some ⟨convertScalar (.first a.js) base type,.scalar type,none⟩
  | .other _ none => none

/-- None where the compiler rejects the expression. -/
def genExpr (es3 : Bool) (scope : Scope) : Expr → Option Result
  | .num v type =>
    match type with
    | .float =>
      let p := Prim.num (if v.value = .infinity false then .infinity false else v.value)
      some ⟨.lit p,.scalar .float,some (.num v.value)⟩
    | .uint => some ⟨.lit (.num v.value.toUint32),.scalar .uint,some (.num v.value.toUint32)⟩
    | _ => some ⟨.lit (.num v.value.toInt32),.scalar .int,some (.num v.value.toInt32)⟩
  | .bool v => some ⟨.lit (.bool v),.scalar .bool,some (.bool v)⟩
  | .id name => scope name
  | .un op e => do
    let e ← genExpr es3 scope e
    genUnary es3 op e
  | .bin op l r => do
    let a ← genExpr es3 scope l
    let b ← genExpr es3 scope r
    let res ← genBinary es3 op a b
    some { res with cv := foldBinary op a b }
  | .ctor type arg => do
    let a ← genExpr es3 scope arg
    genCtor type a
  | .length len => some ⟨.lit (.num (.ofInt len)),.scalar .int,some (.num (.ofInt len))⟩
  | .other t code => some ⟨.code code,t,none⟩

def constInt (es3 : Bool) (scope : Scope) (e : Expr) : Option Number := do
  let r ← genExpr es3 scope e
  match r.t,r.cv with
  | .scalar .int,some (.num v) | .scalar .uint,some (.num v) => if v.le (.ofInt 0) then none else some v
  | _,_ => none

/-- What becomes of the names and the variables on the way through a shader. -/
inductive Step where
  | const (name : String) (t : Ty) (init : Expr)
  | mutable (name : String) (t : Ty)
  | evaluate (e : Expr)
  | run (after : Env)

structure State where
  scope : Scope
  env : Env
  /-- The variables of JavaScript are numbered as they are declared. -/
  next : ℕ
  constants : List ℕ

def start (builtins : List (String × Number)) (env : Env) : State where
  scope name := (builtins.lookup name).map fun v =>
    ⟨.lit (.num v.toInt32),.scalar .int,some (.num v.toInt32)⟩
  env := env
  next := 0
  constants := []

def Right (es3 : Bool) (st : State) (e : Expr) : Prop :=
  ∀ r v,genExpr es3 st.scope e = some r → r.cv = some v → r.js.eval st.env = v

end Sharko.Script.Shaders
