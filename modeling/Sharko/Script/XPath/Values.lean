import Sharko.Script.XPath.Nodes

/-! Values of XPath expressions, their conversions and comparisons. The numbers of the
language are a parameter. -/

namespace Sharko.Script.XPath
open Library

/-- The numbers of JavaScript with the operations the engine uses. -/
class JsNumber (R : Type) where
  ofNat : Nat → R
  nan : R
  infinity : R
  neg : R → R
  add : R → R → R
  sub : R → R → R
  mul : R → R → R
  div : R → R → R
  /-- The operator `%`. -/
  rem : R → R → R
  floor : R → R
  ceil : R → R
  round : R → R
  eq : R → R → Bool
  lt : R → R → Bool
  parseFloat : JsString → R
  toText : R → JsString
  toIndex : R → Nat

inductive Value (R : Type) where
  | number (v : R)
  | string (v : JsString)
  | boolean (v : Bool)
  | nodes (set : List Node)

inductive XPathError where
  | typeConversion
  | arity
deriving DecidableEq

def isSpace (c : UInt16) : Bool := c == 32 || c == 9 || c == 13 || c == 10

def isDigit (c : UInt16) : Bool := 48 ≤ c && c ≤ 57

def nodeSetOf {R : Type} : Value R → Except XPathError (List Node)
  | .nodes set => .ok set
  | _ => .error .typeConversion

def isNumber (s : JsString) : Bool :=
  let trimmed := ((s.dropWhile isSpace).reverse.dropWhile isSpace).reverse
  let unsigned := if trimmed.head? = some 45 then trimmed.drop 1 else trimmed
  let whole := unsigned.takeWhile isDigit
  match unsigned.dropWhile isDigit with
  | [] => !whole.isEmpty
  | c :: fraction => c == 46 && fraction.all isDigit && (!whole.isEmpty || !fraction.isEmpty)

def digitsToNat (s : JsString) : Nat := s.foldl (fun n c => 10 * n + (c.toNat - 48)) 0

def splitExponent (s : JsString) : Option (JsString × JsString × Bool × Nat) :=
  let sign := s.takeWhile (· == 45)
  let rest := s.drop sign.length
  let mantissa := rest.takeWhile (· != 101)
  match rest.drop mantissa.length with
  | _ :: direction :: exponent =>
    let fraction := if mantissa.length = 1 then [] else mantissa.drop 2
    if sign.length ≤ 1 && (mantissa.take 1).all isDigit && !mantissa.isEmpty &&
        (mantissa.length = 1 || mantissa[1]? == some 46 && !fraction.isEmpty) &&
        fraction.all isDigit && (direction == 43 || direction == 45) &&
        exponent.all isDigit && !exponent.isEmpty then
      some (sign,mantissa.take 1 ++ fraction,direction == 45,digitsToNat exponent)
    else none
  | _ => none

section
variable {R : Type} [JsNumber R]

def strToNum (s : JsString) : R := if isNumber s then JsNumber.parseFloat s else JsNumber.nan

def isNaN (v : R) : Bool := !JsNumber.eq v v

def isZero (v : R) : Bool := JsNumber.eq v (JsNumber.ofNat 0)

def numToStr (v : R) : JsString :=
  if isNaN v then js "NaN"
  else if isZero v then js "0"
  else if JsNumber.eq v JsNumber.infinity then js "Infinity"
  else if JsNumber.eq v (JsNumber.neg JsNumber.infinity) then js "-Infinity"
  else
    let s := JsNumber.toText v
    match splitExponent s with
    | none => s
    | some (sign,digits,negative,exponent) =>
      if negative && exponent ≠ 0 then sign ++ js "0." ++ List.replicate (exponent - 1) 48 ++ digits
      else
        let point := 1 + exponent
        sign ++ if digits.length ≤ point then digits ++ List.replicate (point - digits.length) 48
          else digits.take point ++ js "." ++ digits.drop point

variable (d : Document)

def toStr : Value R → JsString
  | .string v => v
  | .number v => numToStr v
  | .boolean v => if v then js "true" else js "false"
  | .nodes [] => []
  | .nodes (n :: _) => d.stringValue n

def toNum : Value R → R
  | .number v => v
  | .string v => strToNum v
  | .boolean v => JsNumber.ofNat (if v then 1 else 0)
  | .nodes set => strToNum (toStr d (.nodes set : Value R))

def toBool : Value R → Bool
  | .boolean v => v
  | .number v => !isZero v && !isNaN v
  | .string v => !v.isEmpty
  | .nodes set => !set.isEmpty

inductive Comparison where
  | eq
  | ne
  | lt
  | le
  | gt
  | ge
deriving DecidableEq

def cmpNum (op : Comparison) (a b : R) : Bool :=
  match op with
  | .eq => JsNumber.eq a b
  | .ne => !JsNumber.eq a b
  | .lt => JsNumber.lt a b
  | .le => JsNumber.lt a b || JsNumber.eq a b
  | .gt => JsNumber.lt b a
  | .ge => JsNumber.lt b a || JsNumber.eq a b

def sameValue (x y : Value R) : Bool :=
  match x,y with
  | .boolean _,_ | _,.boolean _ => toBool x == toBool y
  | .number _,_ | _,.number _ => JsNumber.eq (toNum d x) (toNum d y)
  | _,_ => toStr d x == toStr d y

def cmpPrim (op : Comparison) (x y : Value R) : Bool :=
  match op with
  | .eq => sameValue d x y
  | .ne => !sameValue d x y
  | _ => cmpNum op (toNum d x) (toNum d y)

def compare (op : Comparison) (x y : Value R) : Bool :=
  match x,y with
  | .nodes xs,.nodes ys => xs.any fun a => ys.any fun b =>
      cmpPrim d op (.string (d.stringValue a) : Value R) (.string (d.stringValue b))
  | .nodes xs,.boolean v => cmpPrim d op (.boolean (!xs.isEmpty) : Value R) (.boolean v)
  | .boolean v,.nodes ys => cmpPrim d op (.boolean v : Value R) (.boolean (!ys.isEmpty))
  | .nodes xs,other => xs.any fun a => cmpPrim d op (.string (d.stringValue a)) other
  | other,.nodes ys => ys.any fun b => cmpPrim d op other (.string (d.stringValue b))
  | x,y => cmpPrim d op x y

end

end Sharko.Script.XPath
