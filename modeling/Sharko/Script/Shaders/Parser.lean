import Sharko.Script.Shaders.Expansion
import Sharko.Script.Shaders.Folding

/-! The parser of shaders reads an expression from the tokens by recursive descent. -/

namespace Sharko.Script.Shaders.Parser

open Sharko.Library

inductive AssignOp where
  | set | add | sub | mul | div | mod | shl | shr | and | or | xor
  deriving DecidableEq

inductive StepOp where
  | inc | dec
  deriving DecidableEq

inductive Punct where
  | bin (op : BinOp)
  | assign (op : AssignOp)
  | step (op : StepOp)
  | not | compl | question | colon | comma | dot | semicolon
  | lparen | rparen | lbracket | rbracket | lbrace | rbrace
  deriving DecidableEq

def binText : BinOp → String
  | .add => "+" | .sub => "-" | .mul => "*" | .div => "/" | .mod => "%"
  | .lt => "<" | .gt => ">" | .le => "<=" | .ge => ">=" | .eq => "==" | .ne => "!="
  | .and => "&&" | .or => "||" | .xor => "^^"
  | .bitAnd => "&" | .bitOr => "|" | .bitXor => "^" | .shl => "<<" | .shr => ">>"

def AssignOp.text : AssignOp → String
  | set => "=" | add => "+=" | sub => "-=" | mul => "*=" | div => "/=" | mod => "%="
  | shl => "<<=" | shr => ">>=" | and => "&=" | or => "|=" | xor => "^="

def Punct.text : Punct → String
  | bin op => binText op
  | assign op => op.text
  | step .inc => "++" | step .dec => "--"
  | not => "!" | compl => "~" | question => "?" | colon => ":" | comma => "," | dot => "."
  | semicolon => ";"
  | lparen => "(" | rparen => ")" | lbracket => "[" | rbracket => "]"
  | lbrace => "\x7b" | rbrace => "\x7d"

/-- The `s` of a number is how the source writes it. -/
inductive Token where
  | num (v : Number) (type : Base) (s : Text) (line : ℕ)
  | id (v : Text) (line : ℕ)
  | p (v : Punct) (line : ℕ)

def Token.line : Token → ℕ
  | num _ _ _ line => line
  | id _ line => line
  | p _ line => line

def Token.tok : Token → Text
  | num _ _ s _ => s
  | id v _ => v
  | p v _ => v.text.toList

def basicTypes : List String := ["void","bool","int","uint","float"]

def typeRe : List String :=
  ["vec2","vec3","vec4","ivec2","ivec3","ivec4","bvec2","bvec3","bvec4","uvec2","uvec3","uvec4"] ++
  ["mat2","mat2x2","mat2x3","mat2x4","mat3","mat3x2","mat3x3","mat3x4","mat4","mat4x2","mat4x3",
    "mat4x4"] ++
  ["sampler2D","sampler3D","samplerCube","sampler2DArray","sampler2DShadow","samplerCubeShadow",
    "sampler2DArrayShadow"] ++
  ["isampler2D","isampler3D","isamplerCube","isampler2DArray","isampler2DShadow","isamplerCubeShadow",
    "isampler2DArrayShadow"] ++
  ["usampler2D","usampler3D","usamplerCube","usampler2DArray","usampler2DShadow","usamplerCubeShadow",
    "usampler2DArrayShadow"]

def keywords : List String :=
  ["break","continue","do","for","while","switch","case","default","if","else","discard","return","struct",
    "const","in","out","inout","attribute","varying","uniform","layout","centroid","flat","smooth",
    "invariant","highp","mediump","lowp","precision","true","false"]

def isKeyword (v : Text) : Bool := (keywords.map String.toList).contains v

/-- The names of the structures declared so far; `ident` lets no keyword be one. -/
structure Structs where
  has : Text → Bool
  no_keyword : ∀ v,isKeyword v → has v = false

def isTypeName (structs : Structs) (v : Text) : Bool :=
  ((basicTypes ++ typeRe).map String.toList).contains v || structs.has v

abbrev TypeName (structs : Structs) := {v : Text // isTypeName structs v}

abbrev Name (structs : Structs) := {v : Text // isTypeName structs v = false ∧ isKeyword v = false}

/-- The nodes of `++` and `--` have the kind `pre`, the others `un`. -/
inductive UnaryOp where
  | plus | minus | not | compl
  | step (op : StepOp)
  deriving DecidableEq

/-- A call of a constructor is `ctor`, and `ctorArray` if it is of an array type. -/
inductive Expr (structs : Structs) where
  | num (v : Number) (type : Base) (line : ℕ)
  | bool (v : Bool) (line : ℕ)
  | id (name : Name structs) (line : ℕ)
  | call (name : Name structs) (args : List (Expr structs)) (line : ℕ)
  | ctor (type : TypeName structs) (args : List (Expr structs)) (line : ℕ)
  | ctorArray (type : TypeName structs) (len : Expr structs) (args : List (Expr structs)) (line : ℕ)
  | index (e i : Expr structs) (line : ℕ)
  | field (e : Expr structs) (name : Text) (line : ℕ)
  | length (e : Expr structs) (line : ℕ)
  | post (op : StepOp) (e : Expr structs) (line : ℕ)
  | unary (op : UnaryOp) (e : Expr structs) (line : ℕ)
  | bin (op : BinOp) (l r : Expr structs) (line : ℕ)
  | cond (c a b : Expr structs) (line : ℕ)
  | assign (op : AssignOp) (l r : Expr structs) (line : ℕ)
  | comma (l r : Expr structs) (line : ℕ)

def levels : List (List BinOp) :=
  [[.or],[.xor],[.and],[.bitOr],[.bitXor],[.bitAnd],[.eq,.ne],[.lt,.gt,.le,.ge],[.shl,.shr],[.add,.sub],
    [.mul,.div,.mod]]

def Punct.unaryOp : Punct → Option UnaryOp
  | bin .add => some .plus
  | bin .sub => some .minus
  | not => some .not
  | compl => some .compl
  | step op => some (.step op)
  | _ => none

inductive Failure where
  | outOfFuel
  | error (e : GlslError)

/-- The list of tokens leaves out the last one, the end of the file, which is on the line `eof`. -/
def err {α : Type} (eof : ℕ) (message : String) : List Token → Except Failure α
  | [] => .error (.error ⟨eof,"<EOF>".toList,message⟩)
  | t :: _ => .error (.error ⟨t.line,t.tok,message⟩)

def expectP (eof : ℕ) (v : Punct) : List Token → Except Failure (List Token)
  | [] => err eof "syntax error, unexpected end of file" []
  | t :: rest => match t with
    | .p w _ => if w = v then .ok rest else err eof s!"syntax error, expected '{v.text}'" (t :: rest)
    | _ => err eof s!"syntax error, expected '{v.text}'" (t :: rest)

variable (structs : Structs) (eof : ℕ)

abbrev Result := Except Failure (Expr structs × List Token)

mutual

def primary : ℕ → List Token → Result structs
  | 0,_ => .error .outOfFuel
  | _ + 1,[] => err eof "syntax error, unexpected end of file" []
  | _ + 1,.num v type _ line :: rest => .ok (.num v type line,rest)
  | n + 1,.id v line :: rest =>
    if v = "true".toList ∨ v = "false".toList then .ok (.bool (v = "true".toList) line,rest)
    else if type : isTypeName structs v then
      match rest with
      | .p .lbracket _ :: rest => do
        let (len,rest) ← assignment n rest
        let rest ← expectP eof .rbracket rest
        let rest ← expectP eof .lparen rest
        let (args,rest) ← argList n rest
        .ok (.ctorArray ⟨v,type⟩ len args line,rest)
      | rest => do
        let rest ← expectP eof .lparen rest
        let (args,rest) ← argList n rest
        .ok (.ctor ⟨v,type⟩ args line,rest)
    else if keyword : isKeyword v then err eof "syntax error" (.id v line :: rest)
    else
      let name : Name structs := ⟨v,by simpa using type,by simpa using keyword⟩
      match rest with
      | .p .lparen _ :: rest => do
        let (args,rest) ← argList n rest
        .ok (.call name args line,rest)
      | rest => .ok (.id name line,rest)
  | n + 1,.p v line :: rest =>
    if v = .lparen then do
      let (e,rest) ← expression n rest
      let rest ← expectP eof .rparen rest
      .ok (e,rest)
    else err eof "syntax error" (.p v line :: rest)

def argList : ℕ → List Token → Except Failure (List (Expr structs) × List Token)
  | 0,_ => .error .outOfFuel
  | n + 1,ts =>
    match ts with
    | .id v line :: .p .rparen line' :: rest =>
      if v = "void".toList then .ok ([],rest) else arguments n (.id v line :: .p .rparen line' :: rest)
    | .p .rparen _ :: rest => .ok ([],rest)
    | ts => arguments n ts

/-- The arguments and the closing parenthesis, where there is at least one argument. -/
def arguments : ℕ → List Token → Except Failure (List (Expr structs) × List Token)
  | 0,_ => .error .outOfFuel
  | n + 1,ts => do
    let (e,rest) ← assignment n ts
    match rest with
    | .p .comma _ :: rest => do
      let (es,rest) ← arguments n rest
      .ok (e :: es,rest)
    | rest => do
      let rest ← expectP eof .rparen rest
      .ok ([e],rest)

def postfixExpr : ℕ → List Token → Result structs
  | 0,_ => .error .outOfFuel
  | n + 1,ts => do
    let (e,rest) ← primary n ts
    postfixRest n e rest

def postfixRest : ℕ → Expr structs → List Token → Result structs
  | 0,_,_ => .error .outOfFuel
  | n + 1,e,ts =>
    match ts with
    | .p .lbracket line :: rest => do
      let (i,rest) ← expression n rest
      let rest ← expectP eof .rbracket rest
      postfixRest n (.index e i line) rest
    | .p .dot line :: .id v _ :: .p .lparen line' :: rest =>
      if v = "length".toList then do
        let rest ← expectP eof .rparen rest
        postfixRest n (.length e line) rest
      else postfixRest n (.field e v line) (.p .lparen line' :: rest)
    | .p .dot line :: .id v _ :: rest => postfixRest n (.field e v line) rest
    | .p .dot _ :: rest => err eof "syntax error" rest
    | .p (.step op) line :: rest => postfixRest n (.post op e line) rest
    | ts => .ok (e,ts)

def unary : ℕ → List Token → Result structs
  | 0,_ => .error .outOfFuel
  | n + 1,ts =>
    match ts with
    | .p v line :: rest =>
      match v.unaryOp with
      | some op => do
        let (e,rest) ← unary n rest
        .ok (.unary op e line,rest)
      | none => postfixExpr n (.p v line :: rest)
    | ts => postfixExpr n ts

def binary : ℕ → ℕ → List Token → Result structs
  | 0,_,_ => .error .outOfFuel
  | n + 1,level,ts =>
    if levels.length ≤ level then unary n ts
    else do
      let (l,rest) ← binary n (level + 1) ts
      binaryRest n level l rest

def binaryRest : ℕ → ℕ → Expr structs → List Token → Result structs
  | 0,_,_,_ => .error .outOfFuel
  | n + 1,level,l,ts =>
    match ts with
    | .p (.bin op) line :: rest =>
      if op ∈ levels.getD level [] then do
        let (r,rest) ← binary n (level + 1) rest
        binaryRest n level (.bin op l r line) rest
      else .ok (l,.p (.bin op) line :: rest)
    | ts => .ok (l,ts)

def conditional : ℕ → List Token → Result structs
  | 0,_ => .error .outOfFuel
  | n + 1,ts => do
    let (c,rest) ← binary n 0 ts
    match rest with
    | .p .question line :: rest => do
      let (a,rest) ← expression n rest
      let rest ← expectP eof .colon rest
      let (b,rest) ← assignment n rest
      .ok (.cond c a b line,rest)
    | rest => .ok (c,rest)

def assignment : ℕ → List Token → Result structs
  | 0,_ => .error .outOfFuel
  | n + 1,ts => do
    let (l,rest) ← conditional n ts
    match rest with
    | .p (.assign op) line :: rest => do
      let (r,rest) ← assignment n rest
      .ok (.assign op l r line,rest)
    | rest => .ok (l,rest)

def expression : ℕ → List Token → Result structs
  | 0,_ => .error .outOfFuel
  | n + 1,ts => do
    let (e,rest) ← assignment n ts
    expressionRest n e rest

def expressionRest : ℕ → Expr structs → List Token → Result structs
  | 0,_,_ => .error .outOfFuel
  | n + 1,e,ts =>
    match ts with
    | .p .comma line :: rest => do
      let (r,rest) ← assignment n rest
      expressionRest n (.comma e r line) rest
    | ts => .ok (e,ts)

end

def readExpression (ts : List Token) : Result structs := expression structs eof (20 * ts.length + 18) ts

end Sharko.Script.Shaders.Parser
