import Mathlib.Logic.Function.Basic
import Sharko.Library.Numbers
import Sharko.Library.Text

/-! Macro expansion in shaders works on text: what a macro stands for is expanded by itself and put in the
place of its name. -/

namespace Sharko.Script.Shaders

open Sharko.Library

abbrev Text := List Char

instance text_lawful : LawfulBEq Text := inferInstance

/-- The message of the log is `ERROR: 0:line: 'tok' : message`. -/
structure GlslError where
  line : ℕ
  tok : Text
  message : String
  deriving DecidableEq

inductive Macro where
  | dyn
  | object (body : Text)
  | function (params : List Text) (body : Text)
  deriving DecidableEq

def Macro.body : Macro → Text
  | dyn => []
  | object body => body
  | function _ body => body

abbrev Macros := Text → Option Macro

def isSpace (c : Char) : Bool := Text.isWhitespace c && c.toNat != 0x85 || c.toNat == 0xfeff

def isLetter (c : Char) : Bool := 'a' ≤ c && c ≤ 'z' || 'A' ≤ c && c ≤ 'Z' || c == '_'

def isDigit (c : Char) : Bool := '0' ≤ c && c ≤ '9'

def isHexDigit (c : Char) : Bool := isDigit c || 'a' ≤ c && c ≤ 'f' || 'A' ≤ c && c ≤ 'F'

def isWord (c : Char) : Bool := isLetter c || isDigit c

def trimStart (text : Text) : Text := text.dropWhile isSpace

def trim (text : Text) : Text := (trimStart (trimStart text).reverse).reverse

def count (p : Char → Bool) (text : Text) : ℕ := (text.takeWhile p).length

def optional (p : Char → Bool) : Text → ℕ
  | c :: _ => if p c then 1 else 0
  | [] => 0

def isUnsignedSuffix (c : Char) : Bool := c == 'u' || c == 'U'

def hexLength : Text → ℕ
  | '0' :: x :: rest =>
    let digits := count isHexDigit rest
    if (x = 'x' ∨ x = 'X') ∧ digits ≠ 0 then 2 + digits + optional isUnsignedSuffix (rest.drop digits)
    else 0
  | _ => 0

def exponentLength : Text → ℕ
  | e :: rest =>
    let sign := optional (fun c => c == '+' || c == '-') rest
    let digits := count isDigit (rest.drop sign)
    if (e = 'e' ∨ e = 'E') ∧ digits ≠ 0 then 1 + sign + digits else 0
  | [] => 0

def decimalLength (text : Text) : ℕ :=
  let whole := count isDigit text
  let mantissa := match text.drop whole with
    | '.' :: rest =>
      let places := count isDigit rest
      if whole = 0 ∧ places = 0 then 0 else whole + 1 + places
    | _ => whole
  if mantissa = 0 then 0
  else
    let exponent := exponentLength (text.drop mantissa)
    mantissa + exponent + optional (fun c => c == 'f' || c == 'F' || isUnsignedSuffix c)
      (text.drop (mantissa + exponent))

/-- The length of what `NUM_RE` matches; without a match it is the one character. -/
def numberLength (text : Text) : ℕ :=
  let n := if hexLength text ≠ 0 then hexLength text else decimalLength text
  if n = 0 then 1 else n

def collect (lvl : ℕ) (args : List Text) (cur : Text) : Text → Option (List Text × Text × Text)
  | [] => none
  | ch :: rest =>
    if ch = '(' then collect (lvl + 1) args (cur ++ [ch]) rest
    else if ch = ')' then
      if lvl = 0 then some (args,cur,rest) else collect (lvl - 1) args (cur ++ [ch]) rest
    else if ch = ',' ∧ lvl = 0 then collect lvl (args ++ [cur]) [] rest
    else collect lvl args (cur ++ [ch]) rest

def substitute (params args : List Text) : ℕ → Text → Text
  | 0,_ => []
  | _ + 1,[] => []
  | n + 1,text@(cc :: rest) =>
    if isLetter cc then
      let bid := text.takeWhile isWord
      (match args[params.idxOf bid]? with
        | some arg => if bid ∈ params then arg else bid
        | none => bid) ++ substitute params args n (text.drop bid.length)
    else if isDigit cc then
      text.take (numberLength text) ++ substitute params args n (text.drop (numberLength text))
    else cc :: substitute params args n rest

section

variable (macros : Macros) (lineNo : ℕ)

def scan (inner : List Text → Text → Except GlslError Text) (disabled : List Text) :
    ℕ → Text → Except GlslError Text
  | 0,_ => .ok []
  | _ + 1,[] => .ok []
  | n + 1,text@(c :: rest) =>
    if isDigit c || (c == '.' && rest.head?.any isDigit) then do
      let res ← scan inner disabled n (text.drop (numberLength text))
      .ok (text.take (numberLength text) ++ res)
    else if isLetter c then
      let id := text.takeWhile isWord
      let after := text.drop id.length
      let unchanged : Except GlslError Text := do
        let res ← scan inner disabled n after
        .ok (id ++ res)
      match macros id with
      | none => unchanged
      | some mac =>
        if id ∈ disabled then unchanged
        else match mac with
          | .dyn => do
            let res ← scan inner disabled n after
            .ok ((toString lineNo).toList ++ res)
          | .object body => do
            let expanded ← inner (id :: disabled) body
            let res ← scan inner disabled n after
            .ok (expanded ++ res)
          | .function params body =>
            match trimStart after with
            | '(' :: inside =>
              match collect 0 [] [] inside with
              | none => .error ⟨lineNo,id,"unterminated macro invocation"⟩
              | some (args,cur,after) =>
                let args := if args ≠ [] ∨ trim cur ≠ [] ∨ params ≠ [] then args ++ [cur] else args
                if args.length ≠ params.length then
                  .error ⟨lineNo,id,"Invalid number of macro arguments"⟩
                else do
                  let ea ← args.mapM fun a => inner disabled (trim a)
                  let expanded ← inner (id :: disabled) (substitute params ea body.length body)
                  let res ← scan inner disabled n after
                  .ok (expanded ++ res)
            | _ => unchanged
    else do
      let res ← scan inner disabled n rest
      .ok (c :: res)

def expandWithin : ℕ → List Text → Text → Except GlslError Text
  | 0,_,text => .ok text
  | depth + 1,disabled,text => scan macros lineNo (expandWithin depth) disabled text.length text

def expand (text : Text) : Except GlslError Text := expandWithin macros lineNo 65 [] text

end

end Sharko.Script.Shaders
