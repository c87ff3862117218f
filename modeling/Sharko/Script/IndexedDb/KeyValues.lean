import Mathlib
import Sharko.Script.IndexedDb.Values

/-! Keys as values and back, and the laws of their order. -/

namespace Sharko.Script.IndexedDb

def timeClip (ms : Int) : Option Int := if ms.natAbs ≤ 8640000000000000 then some ms else none

mutual

def keyToValueIn (nodes : List Node) : Key → List Node × Slot
  | .number v => (nodes,.number (some v))
  | .string v => (nodes,.string v)
  | .date ms => (nodes ++ [⟨.date (timeClip ms),[]⟩],.object nodes.length)
  | .binary v => (nodes ++ [⟨.bytes v,[]⟩],.object nodes.length)
  | .array keys =>
    let (nodes,slots) := membersToValues nodes keys
    (nodes ++ [⟨.array (slots.map some),[]⟩],.object nodes.length)

def membersToValues (nodes : List Node) : List Key → List Node × List Slot
  | [] => (nodes,[])
  | key :: rest =>
    let (nodes,slot) := keyToValueIn nodes key
    let (nodes,slots) := membersToValues nodes rest
    (nodes,slot :: slots)

end

def keyToValue (key : Key) : Graph :=
  let (nodes,root) := keyToValueIn [] key
  ⟨root,nodes⟩

mutual

/-- The dates in the key are time values. -/
def Key.Valid : Key → Prop
  | .date ms => timeClip ms = some ms
  | .array keys => Key.AllValid keys
  | _ => True

def Key.AllValid : List Key → Prop
  | [] => True
  | key :: rest => key.Valid ∧ Key.AllValid rest

end

mutual

theorem keyToValueIn_extends (nodes : List Node) (key : Key) : nodes <+: (keyToValueIn nodes key).1 := by
  cases key with
  | number v | string v => exact List.prefix_rfl
  | date ms | binary v => exact List.prefix_append ..
  | array keys => exact (membersToValues_extends nodes keys).trans (List.prefix_append ..)

theorem membersToValues_extends (nodes : List Node) (keys : List Key) :
    nodes <+: (membersToValues nodes keys).1 := by
  cases keys with
  | nil => exact List.prefix_rfl
  | cons key rest =>
    exact (keyToValueIn_extends nodes key).trans (membersToValues_extends _ rest)

end

theorem last_there {nodes all : List Node} {node : Node} (there : nodes ++ [node] <+: all) :
    all[nodes.length]? = some node := by
  obtain ⟨more,rfl⟩ := there
  simp

mutual

/-- The objects of a key are read back among any others: what an array refers to comes before it. -/
theorem toKeyWith_value {key : Key} (valid : key.Valid) (nodes : List Node) {all : List Node}
    (there : (keyToValueIn nodes key).1 <+: all) {fuel : Nat}
    (enough : (keyToValueIn nodes key).1.length ≤ fuel) {seen : List Nat}
    (outside : ∀ id ∈ seen,(keyToValueIn nodes key).1.length ≤ id) :
    toKeyWith all fuel seen (keyToValueIn nodes key).2 = some key := by
  cases key with
  | number v =>
    rw [keyToValueIn,toKeyWith]
    rfl
  | string v => rw [keyToValueIn,toKeyWith]
  | date ms =>
    obtain ⟨fuel,rfl⟩ := Nat.exists_eq_add_of_le' (le_trans (by simp [keyToValueIn]) enough : 1 ≤ fuel)
    simp only [keyToValueIn,toKeyWith,last_there there,Option.map_some]
    rw [show timeClip ms = some ms from valid]
    rfl
  | binary v =>
    obtain ⟨fuel,rfl⟩ := Nat.exists_eq_add_of_le' (le_trans (by simp [keyToValueIn]) enough : 1 ≤ fuel)
    simp only [keyToValueIn,toKeyWith,last_there there,Option.map_some]
  | array keys =>
    obtain ⟨fuel,rfl⟩ := Nat.exists_eq_add_of_le' (le_trans (by simp [keyToValueIn]) enough : 1 ≤ fuel)
    simp only [keyToValueIn,List.length_append,List.length_singleton] at there enough outside ⊢
    simp only [toKeyWith,last_there there,Option.map_some]
    have fresh : (membersToValues nodes keys).1.length ∉ seen := by
      intro mem
      have := outside _ mem
      omega
    rw [if_neg fresh,toKeyWith_values valid nodes ((List.prefix_append ..).trans there) (by omega)]
    · rfl
    · intro id mem
      rcases List.mem_cons.mp mem with rfl | mem
      · exact le_rfl
      · have := outside id mem
        omega

theorem toKeyWith_values {keys : List Key} (valid : Key.AllValid keys) (nodes : List Node)
    {all : List Node} (there : (membersToValues nodes keys).1 <+: all) {fuel : Nat}
    (enough : (membersToValues nodes keys).1.length ≤ fuel) {seen : List Nat}
    (outside : ∀ id ∈ seen,(membersToValues nodes keys).1.length ≤ id) :
    ((membersToValues nodes keys).2.map some).mapM (fun element : Option Slot =>
      element.bind (toKeyWith all fuel seen)) = some keys := by
  cases keys with
  | nil => rfl
  | cons key rest =>
    have later := membersToValues_extends (keyToValueIn nodes key).1 rest
    have here := toKeyWith_value valid.1 nodes (later.trans there) (later.length_le.trans enough)
      (fun id mem => later.length_le.trans (outside id mem))
    have others := toKeyWith_values valid.2 (keyToValueIn nodes key).1 there enough outside
    simp only [membersToValues,List.map_cons,List.mapM_cons,Option.bind_some,here,others]
    rfl

end

theorem toKey_keyToValue {key : Key} (valid : key.Valid) :
    toKey (keyToValue key).nodes [] (keyToValue key).root = some key :=
  toKeyWith_value valid [] List.prefix_rfl (Nat.le_succ _) (by simp)

theorem allValid_of_mapM {f : Option Slot → Option Key} (valid : ∀ element key,f element = some key → key.Valid)
    {elements : List (Option Slot)} {keys : List Key} (converted : elements.mapM f = some keys) :
    Key.AllValid keys := by
  induction elements generalizing keys with
  | nil =>
    cases converted
    trivial
  | cons element rest ih =>
    rw [List.mapM_cons] at converted
    obtain ⟨key,first,converted⟩ := Option.bind_eq_some_iff.mp converted
    obtain ⟨later,others,same⟩ := Option.bind_eq_some_iff.mp converted
    cases same
    exact ⟨valid element key first,ih others⟩

/-- A key that is read from a value whose dates are time values is a valid one. -/
theorem toKeyWith_valid {nodes : List Node} (dates : ∀ node ∈ nodes,∀ ms,node.kind = .date (some ms) →
    timeClip ms = some ms) {fuel : Nat} {seen : List Nat} {slot : Slot} {key : Key}
    (converted : toKeyWith nodes fuel seen slot = some key) : key.Valid := by
  induction fuel generalizing seen slot key <;> cases slot
  case zero.number | succ.number =>
    rw [toKeyWith] at converted
    obtain ⟨n,-,rfl⟩ := Option.map_eq_some_iff.mp converted
    trivial
  case zero.string | succ.string =>
    rw [toKeyWith] at converted
    cases converted
    trivial
  case succ.object fuel ih id =>
    rw [toKeyWith] at converted
    split at converted
    · rename_i ms kind
      obtain ⟨t,rfl,rfl⟩ := Option.map_eq_some_iff.mp converted
      obtain ⟨node,found,same⟩ := Option.map_eq_some_iff.mp kind
      exact dates node (List.mem_of_getElem? found) t same
    · cases converted
      trivial
    · split_ifs at converted
      obtain ⟨keys,members,rfl⟩ := Option.map_eq_some_iff.mp converted
      refine allValid_of_mapM (fun element key read => ?_) members
      obtain ⟨slot,-,read⟩ := Option.bind_eq_some_iff.mp read
      exact ih read
    · cases converted
  all_goals cases converted

/-- `cmpKeys` orders the keys totally, arrays member by member, and a key that becomes a value
is read back. -/
theorem key_order : (∀ a b,cmpKeys a b = .eq ↔ a = b) ∧ (∀ a b,cmpKeys a b = (cmpKeys b a).swap) ∧
    (∀ a b c,cmpKeys a b = .lt → cmpKeys b c = .lt → cmpKeys a c = .lt) ∧
    (∀ a b,a.t ≠ b.t → cmpKeys a b = compare a.t b.t) ∧ (∀ common a b as bs,cmpKeys a b ≠ .eq →
      cmpKeys (.array (common ++ a :: as)) (.array (common ++ b :: bs)) = cmpKeys a b) ∧
    (∀ as b bs,cmpKeys (.array as) (.array (as ++ b :: bs)) = .lt) ∧
    (∀ nodes : List Node,(∀ node ∈ nodes,∀ ms,node.kind = .date (some ms) → timeClip ms = some ms) →
      ∀ input key,toKey nodes [] input = some key → key.Valid) ∧
    ∀ key : Key,key.Valid → ∃ again,toKey (keyToValue key).nodes [] (keyToValue key).root = some again ∧
      cmpKeys again key = .eq := by
  refine ⟨fun a b => ⟨eq_of_cmpKeys,fun same => same ▸ cmpKeys_self a⟩,cmpKeys_swap,
    fun a b c => cmpKeys_lt_trans,fun a b => cmpKeys_of_types,?_,?_,
    fun nodes dates input key => toKeyWith_valid dates,?_⟩
  · intro common a b as bs differ
    induction common with
    | nil =>
      show (cmpKeys a b).then _ = _
      cases order : cmpKeys a b with
      | eq => exact absurd order differ
      | lt | gt => rfl
    | cons x common ih =>
      show (cmpKeys x x).then _ = _
      rw [cmpKeys_self]
      exact ih
  · intro as b bs
    induction as with
    | nil => rfl
    | cons x as ih =>
      show (cmpKeys x x).then _ = _
      rw [cmpKeys_self]
      exact ih
  · intro key valid
    exact ⟨key,toKey_keyToValue valid,cmpKeys_self key⟩

end Sharko.Script.IndexedDb
