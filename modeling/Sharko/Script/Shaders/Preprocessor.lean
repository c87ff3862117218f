import Mathlib
import Sharko.Script.Shaders.Conditions

/-! The preprocessor of the shader compiler goes through the lines of a source once. Each line becomes one
line of the output, empty where the line is a directive or is left out. -/

namespace Sharko.Script.Shaders.Preprocessor

open Sharko.Library

inductive Opening where
  | ifExpr
  | ifdef
  | ifndef
  deriving DecidableEq

inductive Directive where
  | opening (o : Opening)
  | elif
  | otherwise
  | endif
  | version
  | define
  | undef
  | extension
  | error
  | ignored
  | unknown (name : Text)
  deriving DecidableEq

inductive Line where
  | directive (d : Directive) (rest : Text)
  | text (line : Text)
  deriving DecidableEq

/-- One open group: whether the code around it is active, and whether a branch was taken. -/
structure Frame where
  par : Bool
  taken : Bool
  deriving DecidableEq

structure State where
  macros : Macros
  extensions : List Text := []
  version : ℕ := 100
  out : List Text := []
  stack : List Frame := []
  active : Bool := true
  lineNo : ℕ := 0
  sawCode : Bool := false

def builtinMacros (name : Text) : Option Macro :=
  match String.ofList name with
  | "GL_ES" | "GL_FRAGMENT_PRECISION_HIGH" => some (.object ['1'])
  | "__LINE__" => some .dyn
  | "__FILE__" => some (.object ['0'])
  | "__VERSION__" => some (.object "100".toList)
  | _ => none

def initial : State where
  macros := builtinMacros

def State.fail {α : Type} (st : State) (tok message : String) : Except GlslError α :=
  .error ⟨st.lineNo,tok.toList,message⟩

def versionOf (rest : Text) : Option (ℕ × Option Text) :=
  let rest := trim rest
  let digits := rest.takeWhile isDigit
  let number := Text.decimal (String.ofList digits)
  let after := rest.drop digits.length
  let word := trimStart after
  if digits = [] then none
  else if after = [] then some (number,none)
  else if after.head?.any isSpace ∧ word ≠ [] ∧ word.all isWord then some (number,some word)
  else none

def setVersion (st : State) (rest : Text) : Except GlslError State :=
  if st.sawCode then
    st.fail "#version"
      "#version directive must occur before anything else, except for comments and white space"
  else match versionOf rest with
    | none => st.fail "#version" "invalid version directive"
    | some (version,profile) =>
      if version = 300 ∧ profile ≠ some "es".toList then st.fail "#version" "invalid version directive"
      else if version ≠ 100 ∧ version ≠ 300 then
        st.fail "#version" s!"version number not supported: {version}"
      else if version = 100 ∧ profile ≠ none ∧ profile ≠ some "es".toList then
        st.fail "#version" "invalid version directive"
      else .ok { st with
        version := version
        macros := Function.update st.macros "__VERSION__".toList (some (.object (toString version).toList)) }

def parametersOf (after : Text) : Option (List Text) × Text :=
  match after with
  | '(' :: inside =>
    match inside.dropWhile (· ≠ ')') with
    | ')' :: body =>
      (some ((((inside.takeWhile (· ≠ ')')).splitOn ',').map trim).filter (· ≠ [])),body)
    | _ => (none,after)
  | _ => (none,after)

def setMacro (st : State) (rest : Text) : Except GlslError State :=
  let name := rest.takeWhile isWord
  if !rest.head?.any isLetter then st.fail "#define" "Invalid macro definition"
  else if "GL_".toList.isPrefixOf name || Text.isInfix "__".toList name then
    .error ⟨st.lineNo,name,"Macro name is reserved"⟩
  else
    let mac := match parametersOf (rest.drop name.length) with
      | (some params,body) => Macro.function params (trim body)
      | (none,body) => Macro.object (trim body)
    .ok { st with macros := Function.update st.macros name (some mac) }

def extensionOf (rest : Text) : Option (Text × Text) :=
  let rest := trim rest
  let name := rest.takeWhile isWord
  match trimStart (rest.drop name.length) with
  | ':' :: after =>
    let behavior := trimStart after
    if name ≠ [] ∧ behavior ≠ [] ∧ behavior.all isWord then some (name,behavior) else none
  | _ => none

def setExtension (supported : List Text) (st : State) (rest : Text) : Except GlslError State :=
  match extensionOf rest with
  | none => st.fail "#extension" "invalid extension directive"
  | some (name,behavior) =>
    if behavior ∉ ["enable","require","warn","disable"].map String.toList then
      .error ⟨st.lineNo,behavior,"invalid extension behavior"⟩
    else
      let all := name = "all".toList
      let known := all ∨ name ∈ supported
      if ¬ known ∧ behavior = "require".toList then
        .error ⟨st.lineNo,name,"extension is not supported"⟩
      else if ¬ known ∨ all then .ok st
      else if behavior ≠ "disable".toList then
        .ok { st with
          extensions := st.extensions ++ [name]
          macros := Function.update st.macros name (some (.object ['1'])) }
      else .ok { st with macros := Function.update st.macros name none }

def test (macros : Macros) (lineNo : ℕ) (d : Directive) (rest : Text) : Except GlslError Bool :=
  match d with
  | .opening .ifdef => .ok (macros (trim rest)).isSome
  | .opening .ifndef => .ok !(macros (trim rest)).isSome
  | _ => evalCond lineNo macros rest

/-- In code that is not active `#if` has no condition. -/
def openingTest (st : State) (o : Opening) (rest : Text) : Except GlslError Bool :=
  if o = .ifExpr ∧ st.active = false then .ok false
  else test st.macros st.lineNo (.opening o) rest

def elifTest (st : State) (s : Frame) (rest : Text) : Except GlslError Bool :=
  if s.par then test st.macros st.lineNo .elif rest else .ok false

def openGroup (st : State) (v : Bool) : State :=
  { st with stack := ⟨st.active,v⟩ :: st.stack,active := st.active && v }

def obey (supported : List Text) (st : State) (d : Directive) (rest : Text) : Except GlslError State :=
  match d with
  | .version => setVersion st rest
  | .define => if st.active then setMacro st rest else .ok st
  | .undef =>
    .ok (if st.active then { st with macros := Function.update st.macros (trim rest) none } else st)
  | .opening o => do
    let v ← openingTest st o rest
    .ok (openGroup st v)
  | .elif =>
    match st.stack with
    | [] => st.fail "#elif" "unexpected #elif"
    | s :: below =>
      if s.taken then .ok { st with active := false }
      else do
        let v ← elifTest st s rest
        .ok { st with stack := ⟨s.par,v⟩ :: below,active := s.par && v }
  | .otherwise =>
    match st.stack with
    | [] => st.fail "#else" "unexpected #else"
    | s :: below => .ok { st with stack := ⟨s.par,true⟩ :: below,active := s.par && !s.taken }
  | .endif =>
    match st.stack with
    | [] => st.fail "#endif" "unexpected #endif"
    | s :: below => .ok { st with stack := below,active := s.par }
  | .extension => if st.active then setExtension supported st rest else .ok st
  | .error => if st.active then st.fail "#error" (String.ofList (trim rest)) else .ok st
  | .ignored => .ok st
  | .unknown name =>
    if st.active then .error ⟨st.lineNo,'#' :: name,"invalid directive name"⟩ else .ok st

def emit (st : State) : Line → Except GlslError Text
  | .directive _ _ => .ok []
  | .text line => if st.active then expand st.macros (st.lineNo + 1) line else .ok []

def State.next (st : State) (t : Text) : State :=
  { st with lineNo := st.lineNo + 1,out := st.out ++ [t] }

def step (supported : List Text) (st : State) (line : Line) : Except GlslError State := do
  let t ← emit st line
  match line with
  | .directive d rest => obey supported (st.next t) d rest
  | .text line => .ok { st.next t with sawCode := st.sawCode || (st.active && trim line ≠ []) }

def run (supported : List Text) (st : State) (lines : List Line) : Except GlslError State :=
  lines.foldlM (step supported) st

structure Output where
  text : Text
  version : ℕ
  extensions : List Text
  deriving DecidableEq

def process (supported : List Text) (lines : List Line) : Except GlslError Output := do
  let st ← run supported initial lines
  if st.stack ≠ [] then
    .error ⟨lines.length,"#if".toList,"unexpected end of file found in conditional block"⟩
  else .ok ⟨['\n'].intercalate st.out,st.version,st.extensions⟩

end Sharko.Script.Shaders.Preprocessor
