import Sharko.Script.Shaders.Expansion

/-! The conditions of the preprocessor: expressions over 32-bit integers. -/

namespace Sharko.Script.Shaders

open Sharko.Library

inductive CondToken where
  | num (n : BitVec 32)
  | punct (text : Text)
  deriving DecidableEq

/-- `defined X` or `defined(X)` at the front: the name, the text after it, and whether a word ends there. -/
def definedAt (text : Text) : Option (Text × Text × Bool) :=
  if "defined".toList.isPrefixOf text then
    let rest := text.drop 7
    match trimStart rest with
    | '(' :: inside =>
      let inside := trimStart inside
      match inside.head?,trimStart (inside.dropWhile isWord) with
      | some c,')' :: after => if isLetter c then some (inside.takeWhile isWord,after,false) else none
      | _,_ => none
    | c :: name =>
      if rest.head?.any isSpace && isLetter c then
        some ((c :: name).takeWhile isWord,(c :: name).dropWhile isWord,true)
      else none
    | [] => none
  else none

/-- The operator `defined` stands at the boundary of a word. -/
def replaceDefined (macros : Macros) : ℕ → Bool → Text → Text
  | 0,_,_ => []
  | _ + 1,_,[] => []
  | n + 1,inWord,text@(c :: rest) =>
    match if inWord then none else definedAt text with
    | some (name,after,word) =>
      (if (macros name).isSome then " 1 " else " 0 ").toList ++ replaceDefined macros n word after
    | none => c :: replaceDefined macros n (isWord c) rest

def digitValue (c : Char) : ℕ :=
  if isDigit c then c.toNat - 48 else if 'a' ≤ c then c.toNat - 87 else c.toNat - 55

def parseInt (digits : Text) (base : ℕ) : BitVec 32 :=
  (Number.round (digits.foldl (fun n c => base * n + digitValue c) 0 : ℕ)).bits

/-- The prefix tells the base, and the digits are those which there are in it. -/
def condNumber (tok : Text) : BitVec 32 :=
  match tok with
  | '0' :: c :: rest =>
    if c = 'x' ∨ c = 'X' then parseInt (rest.takeWhile isHexDigit) 16
    else if isDigit c then parseInt (tok.takeWhile fun d => '0' ≤ d && d ≤ '7') 8
    else 0
  | _ => parseInt (tok.takeWhile isDigit) 10

def condTokens : ℕ → Text → List CondToken
  | 0,_ => []
  | _ + 1,[] => []
  | n + 1,text@(c :: rest) =>
    if isSpace c then condTokens n rest
    else if isDigit c then
      .num (condNumber (text.take (numberLength text))) :: condTokens n (text.drop (numberLength text))
    else if isLetter c then .num 0 :: condTokens n (text.dropWhile isWord)
    else if text.take 2 ∈ ["&&","||","==","!=","<=",">=","<<",">>"].map String.toList then
      .punct (text.take 2) :: condTokens n (text.drop 2)
    else .punct [c] :: condTokens n rest

def condLevels : List (List Text) :=
  [["||"],["&&"],["|"],["^"],["&"],["==","!="],["<",">","<=",">="],["<<",">>"],["+","-"],
    ["*","/","%"]].map (List.map String.toList)

def truth (b : Bool) : BitVec 32 := if b then 1 else 0

def condBinary (lineNo : ℕ) (op : Text) (v r : BitVec 32) : Except GlslError (BitVec 32) :=
  match String.ofList op with
  | "*" => .ok (v * r)
  | "/" =>
    if r = 0 then .error ⟨lineNo,op,"Division by zero in preprocessor expression"⟩ else .ok (v.sdiv r)
  | "%" =>
    if r = 0 then .error ⟨lineNo,op,"Division by zero in preprocessor expression"⟩ else .ok (v.srem r)
  | "+" => .ok (v + r)
  | "-" => .ok (v - r)
  | "<<" => .ok (v <<< (r.toNat % 32))
  | ">>" => .ok (v.sshiftRight (r.toNat % 32))
  | "<" => .ok (truth (v.slt r))
  | ">" => .ok (truth (r.slt v))
  | "<=" => .ok (truth (v.sle r))
  | ">=" => .ok (truth (r.sle v))
  | "==" => .ok (truth (v == r))
  | "!=" => .ok (truth (v != r))
  | "&" => .ok (v &&& r)
  | "^" => .ok (v ^^^ r)
  | "|" => .ok (v ||| r)
  | "&&" => .ok (truth (v != 0 && r != 0))
  | "||" => .ok (truth (v != 0 || r != 0))
  | _ => .ok v

abbrev CondParsed := Except GlslError (BitVec 32 × List CondToken)

section

variable (lineNo : ℕ)

mutual

/-- An operand; the closing parenthesis is skipped whatever it is. -/
def condPrim : ℕ → List CondToken → CondParsed
  | 0,_ | _,[] => .error ⟨lineNo,[],"invalid preprocessor expression"⟩
  | _ + 1,.num n :: toks => .ok (n,toks)
  | n + 1,.punct tok :: toks =>
    if tok = ['('] then do
      let (v,toks) ← condLevel n condLevels toks
      .ok (v,toks.drop 1)
    else if tok = ['!'] then do
      let (v,toks) ← condPrim n toks
      .ok (truth (v == 0),toks)
    else if tok = ['-'] then do
      let (v,toks) ← condPrim n toks
      .ok (-v,toks)
    else if tok = ['+'] then condPrim n toks
    else if tok = ['~'] then do
      let (v,toks) ← condPrim n toks
      .ok (~~~v,toks)
    else .error ⟨lineNo,tok,"invalid preprocessor expression"⟩

def condLevel : ℕ → List (List Text) → List CondToken → CondParsed
  | 0,_,_ => .error ⟨lineNo,[],"invalid preprocessor expression"⟩
  | n + 1,[],toks => condPrim n toks
  | n + 1,ops :: tighter,toks => do
    let (v,toks) ← condLevel n tighter toks
    condRest n ops tighter v toks

/-- The further operands of a level, to the left associated. -/
def condRest : ℕ → List Text → List (List Text) → BitVec 32 → List CondToken → CondParsed
  | 0,_,_,_,_ => .error ⟨lineNo,[],"invalid preprocessor expression"⟩
  | n + 1,ops,tighter,v,.punct op :: toks =>
    if op ∈ ops then do
      let (r,toks) ← condLevel n tighter toks
      let v ← condBinary lineNo op v r
      condRest n ops tighter v toks
    else .ok (v,.punct op :: toks)
  | _ + 1,_,_,v,toks => .ok (v,toks)

end

/-- Every token is reached within so many calls. -/
def condFuel (toks : List CondToken) : ℕ := 16 * (toks.length + 1)

def evalCond (macros : Macros) (text : Text) : Except GlslError Bool := do
  let t ← expand macros lineNo (replaceDefined macros text.length false text)
  let toks := condTokens t.length t
  match ← condLevel lineNo (condFuel toks) condLevels toks with
  | (r,[]) => .ok (r != 0)
  | (_,.num n :: _) =>
    .error ⟨lineNo,(toString n.toInt).toList,"invalid preprocessor expression"⟩
  | (_,.punct op :: _) => .error ⟨lineNo,op,"invalid preprocessor expression"⟩

end

end Sharko.Script.Shaders
