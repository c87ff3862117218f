import Mathlib
import Sharko.Library.KeyLists

/-! The import maps of `modules.rs`. -/

namespace Sharko.Script.Modules

open Library.KeyLists

abbrev Text := List Char

structure UrlCrate (Url : Type) where
  parse : Text → Option Url
  join : Url → Text → Option Url
  asStr : Url → Text
  scheme : Url → Text

/-- A JSON value; the members of an object are those of the text, in its order. -/
inductive Json
  | string (text : Text)
  | object (members : List (Text × Json))
  | other

/-- The map of `serde_json`: the last value of each key, in the order of the keys. -/
def asMap (members : List (Text × Json)) : List (Text × Json) :=
  ascending (members.foldl (fun map m => map.filter (·.1 ≠ m.1) ++ [m]) [])

def Json.objectOr (message : String) : Json → Except String (List (Text × Json))
  | .object members => .ok (asMap members)
  | _ => .error message

def Json.asStr : Json → Option Text
  | .string text => some text
  | _ => none

/-- Normalized key, and the address or none if it is invalid. -/
abbrev SpecifierMap := List (Text × Option Text)

structure ImportMap where
  imports : SpecifierMap
  scopes : List (Text × SpecifierMap)

variable {Url : Type} (crate : UrlCrate Url)

def endsInSlash (text : Text) : Bool := text.getLast? = some '/'

def parseUrlLike (specifier : Text) (base : Url) : Option Text :=
  if ['/'] <+: specifier ∨ "./".toList <+: specifier ∨ "../".toList <+: specifier then
    (crate.join base specifier).map crate.asStr
  else (crate.parse specifier).map crate.asStr

def normalizedKey (base : Url) (key : Text) : Text := (parseUrlLike crate key base).getD key

def addressOf (base : Url) (key : Text) (value : Json) : Option Text :=
  (value.asStr.bind fun v => parseUrlLike crate v base).filter fun a => !endsInSlash key || endsInSlash a

def specifierMap (m : List (Text × Json)) (base : Url) : SpecifierMap :=
  descending ((m.filter (!·.1.isEmpty)).map fun e =>
    (normalizedKey crate base e.1,addressOf crate base (normalizedKey crate base e.1) e.2))

def scopesOf (base : Url) : List (Text × Json) → Except String (List (Text × SpecifierMap))
  | [] => .ok []
  | (key,entries) :: rest =>
    match crate.join base key with
    | none => scopesOf base rest
    | some url =>
      (entries.objectOr "each scope must be a JSON object").bind fun entries =>
        (scopesOf base rest).map ((crate.asStr url,specifierMap crate entries base) :: ·)

def ImportMap.parse (v : Json) (base : Url) : Except String ImportMap := do
  let obj ← v.objectOr "the top-level value must be a JSON object"
  let imports ← (entry obj "imports".toList).elim (.ok []) fun imports =>
    (imports.objectOr "\"imports\" must be a JSON object").map (specifierMap crate · base)
  let scopes ← (entry obj "scopes".toList).elim (.ok []) fun scopes =>
    (scopes.objectOr "\"scopes\" must be a JSON object").bind (scopesOf crate base)
  return ⟨imports,descending scopes⟩

/-- Keys that are there already win. -/
def mergeEntries (existing entries : SpecifierMap) : SpecifierMap :=
  entries.foldl (fun existing e => if existing.any (·.1 = e.1) then existing else existing ++ [e]) existing

def mergeScope (scopes : List (Text × SpecifierMap)) (scope : Text × SpecifierMap) : List (Text × SpecifierMap) :=
  match scopes with
  | [] => [scope]
  | (p,existing) :: rest =>
    if p = scope.1 then (p,descending (mergeEntries existing scope.2)) :: rest
    else (p,existing) :: mergeScope rest scope

def ImportMap.merge (map other : ImportMap) : ImportMap where
  imports := descending (mergeEntries map.imports other.imports)
  scopes := descending (other.scopes.foldl mergeScope map.scopes)

def special (url : Text) : Bool :=
  (crate.parse url).any fun u => ["http","https","ws","wss","ftp","file"].any fun s => crate.scheme u = s.toList

def blocks (normalized : Text) : Text := "the import map blocks \"".toList ++ normalized ++ "\"".toList

def backtracks (normalized key : Text) : Text :=
  "\"".toList ++ normalized ++ "\" backtracks above its import map prefix \"".toList ++ key ++ "\"".toList

def exactMatch (normalized : Text) : Option Text → Except Text Text
  | some address => .ok address
  | none => .error (blocks normalized)

def prefixMatch (normalized key : Text) : Option Text → Except Text Text
  | none => .error (blocks normalized)
  | some address =>
    match (crate.parse address).bind (crate.join · (normalized.drop key.length)) with
    | some u => if address <+: crate.asStr u then .ok (crate.asStr u) else .error (backtracks normalized key)
    | none => .error (backtracks normalized key)

def importsMatch (normalized : Text) (asUrl : Option Text) : SpecifierMap → Option (Except Text Text)
  | [] => none
  | (key,address) :: rest =>
    if key = normalized then some (exactMatch normalized address)
    else if endsInSlash key ∧ key <+: normalized ∧ asUrl.all (special crate) then
      some (prefixMatch crate normalized key address)
    else importsMatch normalized asUrl rest

def inScope (base scope : Text) : Prop := scope = base ∨ (endsInSlash scope ∧ scope <+: base)

instance (base scope : Text) : Decidable (inScope base scope) := inferInstanceAs (Decidable (_ ∨ _))

def ImportMap.resolve (map : ImportMap) (base specifier : Text) : Option (Except Text Text) := do
  let baseUrl ← crate.parse base
  let asUrl := parseUrlLike crate specifier baseUrl
  let normalized := asUrl.getD specifier
  (map.scopes.findSome? fun (p,entries) =>
    if inScope base p then importsMatch crate normalized asUrl entries else none).or
      (importsMatch crate normalized asUrl map.imports)

end Sharko.Script.Modules
