import Mathlib
import Sharko.Script.IndexedDb.Keys

/-! The values that records hold and what a key path reads in them: `toKey`,
`evaluateKeyPath`, `extractKey` and the injection of generated keys. -/

namespace Sharko.Script.IndexedDb

/-- A JavaScript value; an object is a place in the graph it belongs to. -/
inductive Slot where
  | undefined
  | null
  | boolean (v : Bool)
  | bigint (v : Int)
  | number (v : Option Number)
  | string (v : Text)
  | object (id : Nat)
  deriving DecidableEq

inductive Kind where
  | plain
  | array (elements : List (Option Slot))
  | date (ms : Option Int)
  | bytes (v : List (Fin 256))
  deriving DecidableEq

structure Node where
  kind : Kind
  properties : List (Text × Slot)
  deriving DecidableEq

/-- A value and the objects it reaches, without getters: what a structured clone yields. -/
structure Graph where
  root : Slot
  nodes : List Node
  deriving DecidableEq

/-- What `cloneValue` hands to a store: a structured clone, or the page's own Blob. -/
inductive Value where
  | clone (graph : Graph)
  | blob (id : Nat)
  deriving DecidableEq

/-- What the page's Blobs read as: their graph with `size`, `type` and what the page put there. -/
abbrev Blobs := Nat → Graph

def Value.read (blobs : Blobs) : Value → Graph
  | .clone graph => graph
  | .blob id => blobs id

def lengthName : Text := [108,101,110,103,116,104]

def ofLength (n : Nat) : Slot := .number (some ((n : ℚ) : Number))

/-- `toKey`; the fuel is at least the number of arrays that are not on the path `seen`. -/
def toKeyWith (nodes : List Node) : Nat → List Nat → Slot → Option Key
  | _,_,.number v => v.map .number
  | _,_,.string v => some (.string v)
  | 0,_,_ => none
  | fuel + 1,seen,.object id =>
    match (nodes[id]?).map Node.kind with
    | some (.date ms) => ms.map .date
    | some (.bytes v) => some (.binary v)
    | some (.array elements) =>
      if id ∈ seen then none
      else
        (elements.mapM fun element : Option Slot =>
          element.bind (toKeyWith nodes fuel (id :: seen))).map .array
    | _ => none
  | _,_,_ => none

def toKey (nodes : List Node) (seen : List Nat) (input : Slot) : Option Key :=
  toKeyWith nodes (nodes.length + 1) seen input

def validMembers (nodes : List Node) (seen : List Nat) (elements : List (Option Slot)) : List Key :=
  elements.foldl
    (fun keys element =>
      match element.bind (toKey nodes seen) with
      | none => keys
      | some k => if keys.any fun x => cmpKeys x k == .eq then keys else keys ++ [k]) []

def toMultiEntryKey (nodes : List Node) (input : Slot) : Option Key :=
  match input with
  | .object id =>
    match (nodes[id]?).map Node.kind with
    | some (.array elements) => some (.array (validMembers nodes [id] elements))
    | _ => toKey nodes [] input
  | _ => toKey nodes [] input

inductive KeyPath where
  | one (path : Text)
  | many (paths : List Text)
  deriving DecidableEq

def idsOf (path : Text) : List Text :=
  if path = [] then [] else path.splitOn 46

def isValidKeyPath (identifier : Text → Bool) : KeyPath → Bool
  | .one path => path = [] || (idsOf path).all identifier
  | .many paths => paths ≠ [] && paths.all fun path => path = [] || (idsOf path).all identifier

def ownProperty (nodes : List Node) (id : Nat) (name : Text) : Option Slot :=
  match nodes[id]? with
  | none => none
  | some node =>
    match node.kind with
    | .array elements =>
      if name = lengthName then some (ofLength elements.length) else node.properties.lookup name
    | _ => node.properties.lookup name

def readStep (nodes : List Node) : Slot → Text → Option Slot
  | .string v,name => if name = lengthName then some (ofLength v.length) else none
  | .object id,name =>
    match ownProperty nodes id name with
    | some .undefined => none
    | found => found
  | _,_ => none

def evaluatePath (graph : Graph) (path : Text) : Option Slot :=
  (idsOf path).foldlM (readStep graph.nodes) graph.root

inductive Extraction where
  | failure
  | invalid
  | key (k : Key)
  deriving DecidableEq

def Extraction.ofKey : Option Key → Extraction
  | none => .invalid
  | some k => .key k

def extractKey (graph : Graph) (kp : KeyPath) (multiEntry : Bool) : Extraction :=
  match kp with
  | .one path =>
    match evaluatePath graph path with
    | none => .failure
    | some slot =>
      .ofKey (if multiEntry then toMultiEntryKey graph.nodes slot else toKey graph.nodes [] slot)
  | .many paths =>
    match paths.mapM (evaluatePath graph) with
    | none => .failure
    | some slots =>
      if multiEntry then .key (.array (validMembers graph.nodes [] (slots.map some)))
      else .ofKey ((slots.mapM (toKey graph.nodes [])).map .array)

def keysOf (kp : KeyPath) (multiEntry : Bool) (graph : Graph) : List Key :=
  match extractKey graph kp multiEntry with
  | .key (.array members) => if multiEntry then members else [.array members]
  | .key k => [k]
  | _ => []

def isObj : Slot → Bool
  | .object _ => true
  | _ => false

def canInjectFrom (nodes : List Node) (value : Slot) : List Text → Bool
  | [] => isObj value
  | name :: rest =>
    match value with
    | .object id =>
      match ownProperty nodes id name with
      | none => true
      | some next => canInjectFrom nodes next rest
    | _ => false

def canInjectKey (graph : Graph) (path : Text) : Bool :=
  canInjectFrom graph.nodes graph.root (idsOf path).dropLast

def defineProperty (nodes : List Node) (id : Nat) (name : Text) (slot : Slot) : List Node :=
  nodes.modify id fun node =>
    if (node.properties.lookup name).isSome then
      { node with
        properties := node.properties.map fun entry =>
          if entry.1 = name then (name,slot) else entry }
    else { node with properties := node.properties ++ [(name,slot)] }

/-- Follows the path from an object, with new objects where it ends early. -/
def injectFrom (slot : Slot) (nodes : List Node) (id : Nat) : List Text → List Node
  | [] => nodes
  | [last] => defineProperty nodes id last slot
  | name :: rest =>
    match ownProperty nodes id name with
    | some (.object next) => injectFrom slot nodes next rest
    | some _ => nodes
    | none =>
      injectFrom slot (defineProperty (nodes ++ [⟨.plain,[]⟩]) id name (.object nodes.length))
        nodes.length rest

def injectKey (graph : Graph) (path : Text) (key : Number) : Graph :=
  match graph.root with
  | .object id => { graph with nodes := injectFrom (.number (some key)) graph.nodes id (idsOf path) }
  | _ => graph

end Sharko.Script.IndexedDb
