import Mathlib
import Sharko.Library.Runs
import Sharko.Script.XPath.Nodes

/-! `Attr` objects and the attributes of their elements: the cache that gives each attribute
one object, and what the attribute methods do to both. -/

namespace Sharko.Script.Dom.Attributes

open Sharko.Library Sharko.Script.XPath

structure Attr where
  owner : Option ℕ
  name : JsString
  value : JsString
  deriving DecidableEq

/-- `native` holds the attributes of the elements, `cache` is `attrNodeCache`, and `made` counts
the `Attr` objects there are. -/
structure State where
  html : ℕ → Bool
  native : ℕ → JsString → Option JsString
  attr : ℕ → Option Attr
  cache : ℕ → JsString → Option ℕ
  made : ℕ

def asciiLetter (c : UInt16) : Bool := (65 ≤ c && c ≤ 90) || (97 ≤ c && c ≤ 122)

def validAttrName (name : JsString) : Bool :=
  !name.isEmpty && name.all fun c => !([9,10,12,13,32,0,47,62,61].contains c)

def validNamespacePrefix (s : JsString) : Bool :=
  !s.isEmpty && s.all fun c => !([9,10,12,13,32,0,47,62].contains c)

def validLocalName : JsString → Bool
  | [] => false
  | c :: rest =>
    if asciiLetter c then rest.all fun c => !([9,10,12,13,32,0,47,62].contains c)
    else if c != 0x3a && c != 0x5f && c < 0x80 then false
    else rest.all fun c =>
      c == 0x2d || c == 0x2e || (0x30 ≤ c && c ≤ 0x39) || c == 0x5f || c == 0x3a || asciiLetter c ||
        0x80 ≤ c

def validQName (qn : JsString) : Bool :=
  if qn.contains 0x3a then
    validNamespacePrefix (qn.takeWhile (· != 0x3a)) &&
      validLocalName ((qn.dropWhile (· != 0x3a)).drop 1)
  else validLocalName qn

def nativeAccepts (name : JsString) : Bool :=
  !name.isEmpty && name.all fun c => !([32,9,10,12,13,34,39,62,47,61,0].contains c)

namespace State

variable (s : State)

def htmlAttrName (el : ℕ) (name : JsString) : JsString := if s.html el then asciiLower name else name

def hasAttr (el : ℕ) (name : JsString) : Bool := (s.native el name).isSome

def owner (a : ℕ) : Option ℕ := (s.attr a).bind Attr.owner

def withNative (el : ℕ) (name : JsString) (value : Option JsString) : State :=
  { s with native := Function.update s.native el (Function.update (s.native el) name value) }

def withCache (el : ℕ) (name : JsString) (a : Option ℕ) : State :=
  { s with cache := Function.update s.cache el (Function.update (s.cache el) name a) }

def withAttr (a : ℕ) (change : Attr → Attr) : State :=
  { s with attr := Function.update s.attr a ((s.attr a).map change) }

def attrSetOwner (a : ℕ) (owner : Option ℕ) : State := s.withAttr a fun attr => { attr with owner }

def attrSetStoredValue (a : ℕ) (value : JsString) : State :=
  s.withAttr a fun attr => { attr with value }

def setAttrCore (el : ℕ) (name value : JsString) : Option State :=
  if nativeAccepts name then some (s.withNative el name (some value)) else none

def removeAttrCore (el : ℕ) (name : JsString) : State :=
  if s.hasAttr el name then s.withNative el name none else s

def newAttr (attr : Attr) : State × ℕ :=
  ({ s with attr := Function.update s.attr s.made (some attr), made := s.made + 1 },s.made)

def attrNode (el : ℕ) (name : JsString) : State × ℕ :=
  match s.cache el name with
  | some a =>
    if s.owner a = some el then (s,a)
    else
      let (t,a) := s.newAttr ⟨some el,name,[]⟩
      (t.withCache el name (some a),a)
  | none =>
    let (t,a) := s.newAttr ⟨some el,name,[]⟩
    (t.withCache el name (some a),a)

def detachAttr (el : ℕ) (name value : JsString) : State × ℕ :=
  match s.cache el name with
  | some a => (((s.withCache el name none).attrSetOwner a none).attrSetStoredValue a value,a)
  | none => s.newAttr ⟨none,name,value⟩

def getAttributeNode (el : ℕ) (name : JsString) : Option (State × ℕ) :=
  let n := s.htmlAttrName el name
  if s.hasAttr el n then some (s.attrNode el n) else none

def valueOf (a : ℕ) : Option JsString :=
  (s.attr a).map fun attr =>
    match attr.owner with
    | some el => (s.native el attr.name).getD attr.value
    | none => attr.value

end State

inductive Action where
  | setAttribute (el : ℕ) (name value : JsString)
  | removeAttribute (el : ℕ) (name : JsString)
  | toggleAttribute (el : ℕ) (name : JsString) (force : Option Bool)
  | getAttributeNode (el : ℕ) (name : JsString)
  | item (el : ℕ) (name : JsString)
  | setAttributeNode (el a : ℕ)
  | removeAttributeNode (el a : ℕ)
  | removeNamedItem (el : ℕ) (name : JsString)
  | setValue (a : ℕ) (value : JsString)
  /-- `lower` says whether the document is an HTML one. -/
  | createAttribute (lower : Bool) (name : JsString)
  | createAttributeNS (qn : JsString)
  | cloneNode (a : ℕ)
  deriving DecidableEq

/-- What a method leaves; none where it throws before it has changed anything. -/
def step (s : State) : Action → Option State
  | .setAttribute el name value =>
    if validAttrName name then s.setAttrCore el (s.htmlAttrName el name) value else none
  | .removeAttribute el name => some (s.removeAttrCore el (s.htmlAttrName el name))
  | .toggleAttribute el name force =>
    if validAttrName name then
      let n := s.htmlAttrName el name
      if s.hasAttr el n then
        if force = some true then some s else some (s.removeAttrCore el n)
      else if force = some false then some s
      else s.setAttrCore el n []
    else none
  | .getAttributeNode el name => some (((s.getAttributeNode el name).map Prod.fst).getD s)
  | .item el name => some (if s.hasAttr el name then (s.attrNode el name).1 else s)
  | .setAttributeNode el a =>
    (s.attr a).bind fun attr =>
      if attr.owner = some el then some s
      else if attr.owner ≠ none then none
      else
        match s.native el attr.name with
        | some old =>
          -- The old object is let go of before the native call can throw.
          let t := (s.detachAttr el attr.name old).1
          match t.setAttrCore el attr.name attr.value with
          | some u => some ((u.attrSetOwner a (some el)).withCache el attr.name (some a))
          | none => some t
        | none =>
          (s.setAttrCore el attr.name attr.value).map fun u =>
            (u.attrSetOwner a (some el)).withCache el attr.name (some a)
  | .removeAttributeNode el a =>
    (s.attr a).bind fun attr =>
      if attr.owner = some el then
        let v := s.native el attr.name
        some ((s.removeAttrCore el attr.name).detachAttr el attr.name (v.getD [])).1
      else none
  | .removeNamedItem el name =>
    let n := s.htmlAttrName el name
    (s.native el n).map fun v => ((s.removeAttrCore el n).detachAttr el n v).1
  | .setValue a value =>
    (s.attr a).map fun attr =>
      let t := s.attrSetStoredValue a value
      match attr.owner with
      | some el => (t.setAttrCore el attr.name value).getD t
      | none => t
  | .createAttribute lower name =>
    if validAttrName name then
      some (s.newAttr ⟨none,if lower then asciiLower name else name,[]⟩).1
    else none
  | .createAttributeNS qn => if validQName qn then some (s.newAttr ⟨none,qn,[]⟩).1 else none
  | .cloneNode a =>
    (s.attr a).bind fun attr =>
      (s.valueOf a).map fun value => (s.newAttr ⟨none,attr.name,value⟩).1

section laws

/-- Every object that names an owner is the one its owner returns for its name, and the owner
has that attribute. -/
def Bound (s : State) : Prop :=
  ∀ a attr el, s.attr a = some attr → attr.owner = some el →
    s.hasAttr el attr.name ∧ (s.getAttributeNode el attr.name).map Prod.snd = some a

/-- What a step does to the objects of the attributes it removes or replaces, and to the
objects without an owner. -/
structure Parted (s : State) (action : Action) (t : State) : Prop where
  owned : ∀ a attr el, s.attr a = some attr → attr.owner = some el →
    ∃ attr', t.attr a = some attr' ∧ attr'.name = attr.name ∧
      (attr'.owner = some el ∧ t.hasAttr el attr.name ∨
        attr'.owner = none ∧ s.native el attr.name = some attr'.value)
  loose : ∀ a attr, s.attr a = some attr → attr.owner = none →
    (∀ value, action = .setValue a value → t.native = s.native) ∧
      ((∀ value, action ≠ .setValue a value) →
        ∃ attr', t.attr a = some attr' ∧ attr'.name = attr.name ∧ attr'.value = attr.value)

/-- The step removes no attribute behind the back of its object, and gives an element no object
under a name that its lookup would not find. -/
def Apart (s : State) : Action → Prop
  | .removeAttribute el name =>
    s.hasAttr el (s.htmlAttrName el name) → s.cache el (s.htmlAttrName el name) = none
  | .toggleAttribute el name force =>
    validAttrName name → force ≠ some true → s.hasAttr el (s.htmlAttrName el name) →
      s.cache el (s.htmlAttrName el name) = none
  | .item el name => s.hasAttr el name → s.htmlAttrName el name = name
  | .setAttributeNode el a =>
    ∀ attr, s.attr a = some attr → attr.owner = none → nativeAccepts attr.name →
      s.htmlAttrName el attr.name = attr.name
  | _ => True

end laws

section lowercase

theorem asciiLower_idem (name : JsString) : asciiLower (asciiLower name) = asciiLower name := by
  unfold asciiLower
  rw [List.map_map]
  apply List.map_congr_left
  intro c _
  simp only [Function.comp_apply]
  split
  next upper =>
    rw [if_neg]
    simp only [Bool.and_eq_true,decide_eq_true_eq,UInt16.le_iff_toNat_le,UInt16.toNat_add] at upper ⊢
    obtain ⟨low,high⟩ := upper
    intro again
    simp at low high again
    omega
  next => rfl

theorem htmlAttrName_idem (s : State) (el : ℕ) (name : JsString) :
    s.htmlAttrName el (s.htmlAttrName el name) = s.htmlAttrName el name := by
  unfold State.htmlAttrName
  split
  · exact asciiLower_idem name
  · rfl

end lowercase

/-- The cache holds the object that has its element for an owner. -/
structure Cached (s : State) : Prop where
  entry : ∀ el n a, s.cache el n = some a →
    ∃ attr, s.attr a = some attr ∧ attr.owner = some el ∧ attr.name = n
  fresh : ∀ a attr, s.attr a = some attr → a < s.made

/-- What `Bound` says of a state whose cache is right. -/
def Tied (s : State) : Prop :=
  ∀ a attr el, s.attr a = some attr → attr.owner = some el →
    s.hasAttr el attr.name ∧ s.cache el attr.name = some a ∧ s.htmlAttrName el attr.name = attr.name

section cached

variable {s : State}

theorem attrNode_cached (cached : Cached s) {el a : ℕ} {n : JsString} (found : s.cache el n = some a) :
    s.attrNode el n = (s,a) := by
  obtain ⟨attr,there,owned,_⟩ := cached.entry el n a found
  simp [State.attrNode,State.owner,found,there,owned]

theorem attrNode_uncached {el : ℕ} {n : JsString} (absent : s.cache el n = none) :
    s.attrNode el n = ((s.newAttr ⟨some el,n,[]⟩).1.withCache el n (some s.made),s.made) := by
  rw [State.attrNode,absent]
  rfl

theorem getAttributeNode_eq (s : State) (el : ℕ) (name : JsString) : s.getAttributeNode el name =
      if s.hasAttr el (s.htmlAttrName el name) then some (s.attrNode el (s.htmlAttrName el name))
      else none := rfl

theorem bound_iff_tied (cached : Cached s) : Bound s ↔ Tied s := by
  constructor
  · intro bound a attr el there owned
    obtain ⟨has,found⟩ := bound a attr el there owned
    rw [getAttributeNode_eq] at found
    split at found
    next present =>
      cases entry : s.cache el (s.htmlAttrName el attr.name) with
      | none =>
        rw [attrNode_uncached entry] at found
        obtain rfl : s.made = a := by simpa using found
        exact absurd (cached.fresh _ _ there) (Nat.lt_irrefl _)
      | some b =>
        rw [attrNode_cached cached entry] at found
        obtain rfl : b = a := by simpa using found
        obtain ⟨attr',there',_,named⟩ := cached.entry _ _ _ entry
        obtain rfl := Option.some.inj (there.symm.trans there')
        rw [← named] at entry
        exact ⟨has,entry,named.symm⟩
    next => cases found
  · intro tied a attr el there owned
    obtain ⟨has,entry,named⟩ := tied a attr el there owned
    refine ⟨has,?_⟩
    rw [getAttributeNode_eq,named,if_pos has,attrNode_cached cached entry]
    rfl

/-- What is proved of one step from a state whose objects are all tied. -/
structure Sound (s : State) (action : Action) (t : State) : Prop where
  cached : Cached t
  tied : Tied t ↔ Apart s action
  parted : Apart s action → Parted s action t

theorem sound_same (cached : Cached s) (tied : Tied s) {action : Action} (allowed : Apart s action)
    (writes : ∀ a value, action ≠ .setValue a value) : Sound s action s where
  cached := cached
  tied := iff_of_true tied allowed
  parted := by
    intro _
    constructor
    · intro a attr el there owned
      exact ⟨attr,there,rfl,.inl ⟨owned,(tied a attr el there owned).1⟩⟩
    · intro a attr there _
      exact ⟨fun value same => absurd same (writes a value),fun _ => ⟨attr,there,rfl,rfl⟩⟩

theorem withNative_some_sound (cached : Cached s) (tied : Tied s) {action : Action} {el : ℕ}
    {n value : JsString} (allowed : Apart s action) (writes : ∀ a value, action ≠ .setValue a value) :
    Sound s action (s.withNative el n (some value)) := by
  have has : ∀ e m, s.hasAttr e m → (s.withNative el n (some value)).hasAttr e m := by
    intro e m present
    unfold State.hasAttr State.withNative at *
    simp only [Function.update_apply]
    split
    next same =>
      subst same
      simp only [Function.update_apply]
      split
      · rfl
      · exact present
    next => exact present
  refine ⟨⟨cached.entry,cached.fresh⟩,iff_of_true ?_ allowed,?_⟩
  · intro a attr e there owned
    obtain ⟨present,entry,named⟩ := tied a attr e there owned
    exact ⟨has e attr.name present,entry,named⟩
  · intro _
    constructor
    · intro a attr e there owned
      exact ⟨attr,there,rfl,.inl ⟨owned,has e attr.name (tied a attr e there owned).1⟩⟩
    · intro a attr there _
      exact ⟨fun value same => absurd same (writes a value),fun _ => ⟨attr,there,rfl,rfl⟩⟩

theorem hasAttr_erased (s : State) (el e : ℕ) (n m : JsString) :
    (s.withNative el n none).hasAttr e m = (!(e = el && m = n) && s.hasAttr e m) := by
  unfold State.hasAttr State.withNative
  by_cases element : e = el
  · subst element
    by_cases name : m = n
    · subst name
      simp
    · simp [name]
  · simp [element]

theorem removeAttrCore_sound (cached : Cached s) (tied : Tied s) {action : Action} {el : ℕ}
    {n : JsString} (exactly : Apart s action ↔ (s.hasAttr el n → s.cache el n = none))
    (writes : ∀ a value, action ≠ .setValue a value) : Sound s action (s.removeAttrCore el n) := by
  unfold State.removeAttrCore
  split
  next present =>
    have only : s.cache el n = none → ∀ a attr e, s.attr a = some attr → attr.owner = some e →
        (s.withNative el n none).hasAttr e attr.name := by
      intro none_ a attr e there owned
      obtain ⟨has,entry,_⟩ := tied a attr e there owned
      rw [hasAttr_erased,has,Bool.and_true,Bool.not_eq_true',Bool.and_eq_false_iff]
      by_contra both
      simp only [not_or,Bool.not_eq_false,decide_eq_true_eq] at both
      rw [both.1,both.2,none_] at entry
      cases entry
    refine ⟨⟨cached.entry,cached.fresh⟩,?_,?_⟩
    · rw [exactly]
      constructor
      · intro later _
        by_contra some_
        obtain ⟨a,entry⟩ := Option.ne_none_iff_exists'.mp some_
        obtain ⟨attr,there,owned,named⟩ := cached.entry el n a entry
        have has := (later a attr el there owned).1
        rw [hasAttr_erased,named] at has
        simp at has
      · intro none_ a attr e there owned
        obtain ⟨_,entry,named⟩ := tied a attr e there owned
        exact ⟨only (none_ present) a attr e there owned,entry,named⟩
    · intro allowed
      have none_ := exactly.mp allowed present
      constructor
      · intro a attr e there owned
        exact ⟨attr,there,rfl,.inl ⟨owned,only none_ a attr e there owned⟩⟩
      · intro a attr there _
        exact ⟨fun value same => absurd same (writes a value),fun _ => ⟨attr,there,rfl,rfl⟩⟩
  next absent =>
    exact sound_same cached tied (exactly.mpr fun present => absurd present absent) writes

theorem newAttr_attr (s : State) (attr : Attr) (a : ℕ) :
    (s.newAttr attr).1.attr a = if a = s.made then some attr else s.attr a :=
  Function.update_apply ..

theorem newAttr_older (cached : Cached s) {attr older : Attr} {a : ℕ} (there : s.attr a = some older) :
    (s.newAttr attr).1.attr a = some older := by
  rw [newAttr_attr,if_neg (Nat.ne_of_lt (cached.fresh a older there)),there]

theorem newAttr_cached (cached : Cached s) (attr : Attr) : Cached (s.newAttr attr).1 where
  entry := by
    intro el n a found
    obtain ⟨older,there,rest⟩ := cached.entry el n a found
    exact ⟨older,newAttr_older cached there,rest⟩
  fresh := by
    intro a older there
    rw [newAttr_attr] at there
    split at there
    next same =>
      rw [same]
      exact Nat.lt_succ_self _
    next => exact Nat.lt_succ_of_lt (cached.fresh a older there)

theorem newAttr_sound (cached : Cached s) (tied : Tied s) {action : Action} (n value : JsString)
    (allowed : Apart s action) (writes : ∀ a value, action ≠ .setValue a value) :
    Sound s action (s.newAttr ⟨none,n,value⟩).1 := by
  refine ⟨newAttr_cached cached _,iff_of_true ?_ allowed,?_⟩
  · intro a attr el there owned
    rw [newAttr_attr] at there
    split at there
    next =>
      obtain rfl := Option.some.inj there
      cases owned
    next => exact tied a attr el there owned
  · intro _
    constructor
    · intro a attr el there owned
      exact ⟨attr,newAttr_older cached there,rfl,.inl ⟨owned,(tied a attr el there owned).1⟩⟩
    · intro a attr there _
      exact ⟨fun value same => absurd same (writes a value),
        fun _ => ⟨attr,newAttr_older cached there,rfl,rfl⟩⟩

theorem withCache_cache (s : State) (el e : ℕ) (n m : JsString) (a : Option ℕ) :
    (s.withCache el n a).cache e m = if e = el ∧ m = n then a else s.cache e m := by
  unfold State.withCache
  by_cases element : e = el
  · subst element
    by_cases name : m = n
    · simp [name]
    · simp [name]
  · simp [element]

theorem attrNode_sound (cached : Cached s) (tied : Tied s) {action : Action} {el : ℕ} {n : JsString}
    (present : s.hasAttr el n) (exactly : Apart s action ↔ s.htmlAttrName el n = n)
    (writes : ∀ a value, action ≠ .setValue a value) : Sound s action (s.attrNode el n).1 := by
  cases entry : s.cache el n with
  | some a =>
    rw [attrNode_cached cached entry]
    obtain ⟨attr,there,owned,named⟩ := cached.entry el n a entry
    refine sound_same cached tied (exactly.mpr ?_) writes
    rw [← named]
    exact (tied a attr el there owned).2.2
  | none =>
    rw [attrNode_uncached entry]
    have older := newAttr_cached cached ⟨some el,n,[]⟩
    refine ⟨⟨?_,older.fresh⟩,?_,?_⟩
    · intro e m a found
      rw [withCache_cache] at found
      split at found
      next same =>
        obtain rfl : s.made = a := Option.some.inj found
        exact ⟨⟨some el,n,[]⟩,(newAttr_attr ..).trans (if_pos rfl),by rw [same.1],same.2.symm⟩
      next => exact older.entry e m a found
    · rw [exactly]
      constructor
      · intro later
        exact (later s.made ⟨some el,n,[]⟩ el ((newAttr_attr ..).trans (if_pos rfl)) rfl).2.2
      · intro named a attr e there owned
        have there := (newAttr_attr ..).symm.trans there
        split at there
        next same =>
          obtain rfl := Option.some.inj there
          obtain rfl := Option.some.inj owned
          refine ⟨present,?_,named⟩
          rw [withCache_cache,if_pos ⟨rfl,rfl⟩,same]
        next =>
          obtain ⟨has,found,lower⟩ := tied a attr e there owned
          refine ⟨has,?_,lower⟩
          rw [withCache_cache,if_neg]
          · exact found
          · rintro ⟨rfl,same⟩
            rw [same,entry] at found
            cases found
    · intro _
      constructor
      · intro a attr e there owned
        exact ⟨attr,newAttr_older cached there,rfl,.inl ⟨owned,(tied a attr e there owned).1⟩⟩
      · intro a attr there _
        exact ⟨fun value same => absurd same (writes a value),
          fun _ => ⟨attr,newAttr_older cached there,rfl,rfl⟩⟩

structure Detached (s : State) (el : ℕ) (n : JsString) (t : State) : Prop where
  cached : Cached t
  tied : Tied t
  absent : t.cache el n = none
  html : t.html = s.html
  owned : ∀ a attr e, s.attr a = some attr → attr.owner = some e →
    ∃ attr', t.attr a = some attr' ∧ attr'.name = attr.name ∧
      (attr'.owner = some e ∧ t.hasAttr e attr.name ∨
        attr'.owner = none ∧ s.native e attr.name = some attr'.value)
  loose : ∀ a attr, s.attr a = some attr → attr.owner = none → t.attr a = some attr

theorem letGo_attr (s : State) (el a b : ℕ) (n v : JsString) :
    (((s.withCache el n none).attrSetOwner a none).attrSetStoredValue a v).attr b =
      if b = a then (s.attr a).map fun attr => { attr with owner := none, value := v }
      else s.attr b := by
  by_cases same : b = a
  · subst same
    rw [if_pos rfl]
    simp only [State.attrSetStoredValue,State.attrSetOwner,State.withAttr,State.withCache,
      Function.update_self,Option.map_map]
    rfl
  · simp only [State.attrSetStoredValue,State.attrSetOwner,State.withAttr,State.withCache,
      Function.update_of_ne same,if_neg same]

theorem detachAttr_detached (cached : Cached s) (tied : Tied s) {u : State} {el : ℕ} {n v : JsString}
    (attrs : u.attr = s.attr) (caches : u.cache = s.cache) (htmls : u.html = s.html) (counts : u.made = s.made)
    (others : ∀ e m, ¬ (e = el ∧ m = n) → u.hasAttr e m = s.hasAttr e m)
    (last : s.native el n = some v) : Detached s el n (u.detachAttr el n v).1 := by
  have cachedU : Cached u := by
    refine ⟨?_,?_⟩
    · rw [attrs,caches]
      exact cached.entry
    · rw [attrs,counts]
      exact cached.fresh
  unfold State.detachAttr
  rw [caches]
  cases entry : s.cache el n with
  | none =>
    have elsewhere : ∀ a attr e, s.attr a = some attr → attr.owner = some e →
        ¬ (e = el ∧ attr.name = n) := by
      rintro a attr e there owned ⟨rfl,rfl⟩
      have found := (tied a attr e there owned).2.1
      rw [entry] at found
      cases found
    have same : ∀ {a attr}, s.attr a = some attr → (u.newAttr ⟨none,n,v⟩).1.attr a = some attr := by
      intro a attr there
      rw [← attrs] at there
      exact newAttr_older cachedU there
    refine ⟨newAttr_cached cachedU _,?_,?_,htmls,?_,fun a attr there _ => same there⟩
    · intro a attr e there owned
      rw [newAttr_attr] at there
      split at there
      next =>
        obtain rfl := Option.some.inj there
        cases owned
      next =>
        rw [attrs] at there
        obtain ⟨has,found,named⟩ := tied a attr e there owned
        refine ⟨(others e _ (elsewhere a attr e there owned)).trans has,caches ▸ found,?_⟩
        unfold State.htmlAttrName at named ⊢
        exact htmls ▸ named
    · exact caches ▸ entry
    · intro a attr e there owned
      refine ⟨attr,same there,rfl,.inl ⟨owned,?_⟩⟩
      exact (others e _ (elsewhere a attr e there owned)).trans (tied a attr e there owned).1
  | some b =>
    obtain ⟨attrB,thereB,ownedB,namedB⟩ := cached.entry el n b entry
    have elsewhere : ∀ a attr e, a ≠ b → s.attr a = some attr → attr.owner = some e →
        ¬ (e = el ∧ attr.name = n) := by
      rintro a attr e different there owned ⟨rfl,rfl⟩
      have found := (tied a attr e there owned).2.1
      exact different (Option.some.inj (found.symm.trans entry))
    refine ⟨⟨?_,?_⟩,?_,?_,htmls,?_,?_⟩
    · intro e m a found
      have found := (withCache_cache ..).symm.trans found
      split at found
      next => cases found
      next away =>
        rw [caches] at found
        obtain ⟨attr,there,owned,named⟩ := cached.entry e m a found
        refine ⟨attr,?_,owned,named⟩
        rw [letGo_attr,if_neg,attrs]
        · exact there
        · rintro rfl
          obtain rfl := Option.some.inj (there.symm.trans thereB)
          exact away ⟨Option.some.inj (owned.symm.trans ownedB),named.symm.trans namedB⟩
    · intro a attr there
      rw [letGo_attr,attrs] at there
      split at there
      next same =>
        subst same
        exact counts ▸ cached.fresh a attrB thereB
      next => exact counts ▸ cached.fresh a attr there
    · intro a attr e there owned
      rw [letGo_attr,attrs] at there
      split at there
      next same =>
        rw [thereB] at there
        obtain rfl := Option.some.inj there
        cases owned
      next different =>
        obtain ⟨has,found,named⟩ := tied a attr e there owned
        have away := elsewhere a attr e different there owned
        refine ⟨(others e _ away).trans has,?_,?_⟩
        · have kept := withCache_cache u el e n attr.name none
          rw [if_neg away,caches,found] at kept
          exact kept
        · unfold State.htmlAttrName at named ⊢
          exact htmls ▸ named
    · have erased := withCache_cache u el el n n none
      rw [if_pos ⟨rfl,rfl⟩] at erased
      exact erased
    · intro a attr e there owned
      rw [letGo_attr,attrs]
      by_cases same : a = b
      · subst same
        obtain rfl := Option.some.inj (there.symm.trans thereB)
        obtain rfl := Option.some.inj (owned.symm.trans ownedB)
        rw [if_pos rfl,there]
        refine ⟨_,rfl,rfl,.inr ⟨rfl,?_⟩⟩
        rw [namedB]
        exact last
      · rw [if_neg same]
        refine ⟨attr,there,rfl,.inl ⟨owned,?_⟩⟩
        exact (others e _ (elsewhere a attr e same there owned)).trans (tied a attr e there owned).1
    · intro a attr there unowned
      rw [letGo_attr,attrs,if_neg]
      · exact there
      · rintro rfl
        obtain rfl := Option.some.inj (there.symm.trans thereB)
        rw [unowned] at ownedB
        cases ownedB

theorem hasAttr_written (s : State) (el e : ℕ) (n m v : JsString) :
    (s.withNative el n (some v)).hasAttr e m = (e = el && m = n || s.hasAttr e m) := by
  unfold State.hasAttr State.withNative
  by_cases element : e = el
  · subst element
    by_cases name : m = n
    · subst name
      simp
    · simp [name]
  · simp [element]

def attached (t : State) (el a : ℕ) (n v : JsString) : State :=
  ((t.withNative el n (some v)).attrSetOwner a (some el)).withCache el n (some a)

theorem attached_attr (t : State) (el a b : ℕ) (n v : JsString) : (attached t el a n v).attr b =
      if b = a then (t.attr a).map fun attr => { attr with owner := some el } else t.attr b := by
  by_cases same : b = a
  · subst same
    rw [if_pos rfl]
    exact Function.update_self ..
  · rw [if_neg same]
    exact Function.update_of_ne same ..

theorem attached_tied {t : State} (cached : Cached t) (tied : Tied t) {el a : ℕ} {attr : Attr}
    (there : t.attr a = some attr) (unowned : attr.owner = none)
    (absent : t.cache el attr.name = none) (v : JsString) : Cached (attached t el a attr.name v) ∧
      (Tied (attached t el a attr.name v) ↔ t.htmlAttrName el attr.name = attr.name) := by
  have self : (attached t el a attr.name v).attr a = some { attr with owner := some el } := by
    rw [attached_attr,if_pos rfl,there]
    rfl
  have caches : ∀ e m, (attached t el a attr.name v).cache e m =
      if e = el ∧ m = attr.name then some a else t.cache e m := fun e m => withCache_cache ..
  have has : ∀ e m, (attached t el a attr.name v).hasAttr e m =
      (e = el && m = attr.name || t.hasAttr e m) := fun e m => hasAttr_written ..
  refine ⟨⟨?_,?_⟩,?_⟩
  · intro e m b found
    rw [caches] at found
    split at found
    next same =>
      obtain rfl := Option.some.inj found
      exact ⟨_,self,by rw [same.1],same.2.symm⟩
    next =>
      obtain ⟨attr',there',owned,named⟩ := cached.entry e m b found
      refine ⟨attr',?_,owned,named⟩
      rw [attached_attr,if_neg]
      · exact there'
      · rintro rfl
        obtain rfl := Option.some.inj (there.symm.trans there')
        rw [unowned] at owned
        cases owned
  · intro b attr' found
    rw [attached_attr] at found
    split at found
    next same =>
      rw [same]
      exact cached.fresh a attr there
    next => exact cached.fresh b attr' found
  · constructor
    · intro later
      exact (later a _ el self rfl).2.2
    · intro named b attr' e found owned
      by_cases same : b = a
      · subst same
        obtain rfl := Option.some.inj (self.symm.trans found)
        obtain rfl := Option.some.inj owned
        exact ⟨by simp [has],by rw [caches,if_pos ⟨rfl,rfl⟩],named⟩
      · rw [attached_attr,if_neg same] at found
        obtain ⟨present,entry,lower⟩ := tied b attr' e found owned
        refine ⟨by simp [has,present],?_,lower⟩
        rw [caches,if_neg]
        · exact entry
        · rintro ⟨rfl,name⟩
          rw [name,absent] at entry
          cases entry

theorem attached_sound {t : State} {el a : ℕ} {attr : Attr} (detached : Detached s el attr.name t)
    (there : s.attr a = some attr) (unowned : attr.owner = none) {action : Action}
    (exactly : Apart s action ↔ s.htmlAttrName el attr.name = attr.name)
    (writes : ∀ a value, action ≠ .setValue a value) (v : JsString) :
    Sound s action (attached t el a attr.name v) := by
  have thereT := detached.loose a attr there unowned
  obtain ⟨cachedW,tiedW⟩ := attached_tied detached.cached detached.tied thereT unowned detached.absent v
  refine ⟨cachedW,?_,?_⟩
  · rw [tiedW,exactly]
    unfold State.htmlAttrName
    rw [detached.html]
  · intro _
    constructor
    · intro b attrB e thereB ownedB
      obtain ⟨attr',there',named,kept⟩ := detached.owned b attrB e thereB ownedB
      have different : b ≠ a := by
        rintro rfl
        obtain rfl := Option.some.inj (there.symm.trans thereB)
        rw [unowned] at ownedB
        cases ownedB
      refine ⟨attr',?_,named,kept.imp ?_ id⟩
      · rw [attached_attr,if_neg different]
        exact there'
      · rintro ⟨owned,has⟩
        refine ⟨owned,(hasAttr_written ..).trans ?_⟩
        rw [has,Bool.or_true]
    · intro b attrB thereB unownedB
      refine ⟨fun value same => absurd same (writes b value),fun _ => ?_⟩
      rw [attached_attr]
      split
      next same =>
        subst same
        obtain rfl := Option.some.inj (there.symm.trans thereB)
        rw [thereT]
        exact ⟨_,rfl,rfl,rfl⟩
      next => exact ⟨attrB,detached.loose b attrB thereB unownedB,rfl,rfl⟩

theorem detached_sound {t : State} {el : ℕ} {n : JsString} (detached : Detached s el n t)
    {action : Action} (allowed : Apart s action) (writes : ∀ a value, action ≠ .setValue a value) :
    Sound s action t where
  cached := detached.cached
  tied := iff_of_true detached.tied allowed
  parted := by
    intro _
    refine ⟨detached.owned,?_⟩
    intro a attr there unowned
    exact ⟨fun value same => absurd same (writes a value),
      fun _ => ⟨attr,detached.loose a attr there unowned,rfl,rfl⟩⟩

theorem stored_attr (s : State) (a b : ℕ) (v : JsString) : (s.attrSetStoredValue a v).attr b =
      if b = a then (s.attr a).map fun attr => { attr with value := v } else s.attr b := by
  by_cases same : b = a
  · subst same
    rw [if_pos rfl]
    exact Function.update_self ..
  · rw [if_neg same]
    exact Function.update_of_ne same ..

theorem stored_sound (cached : Cached s) (tied : Tied s) {a : ℕ} {attr : Attr} {value : JsString}
    (there : s.attr a = some attr) {t : State}
    (attrs : t.attr = (s.attrSetStoredValue a value).attr) (caches : t.cache = s.cache)
    (htmls : t.html = s.html) (counts : t.made = s.made) (has : ∀ e m, s.hasAttr e m → t.hasAttr e m)
    (natives : attr.owner = none → t.native = s.native) : Sound s (.setValue a value) t := by
  have moved : ∀ b attrB, s.attr b = some attrB → ∃ attr', t.attr b = some attr' ∧
      attr'.name = attrB.name ∧ attr'.owner = attrB.owner ∧ (b ≠ a → attr' = attrB) := by
    intro b attrB thereB
    rw [attrs,stored_attr]
    by_cases same : b = a
    · subst same
      rw [if_pos rfl,thereB]
      exact ⟨_,rfl,rfl,rfl,fun different => absurd rfl different⟩
    · rw [if_neg same]
      exact ⟨attrB,thereB,rfl,rfl,fun _ => rfl⟩
  have back : ∀ b attr', t.attr b = some attr' → ∃ attrB, s.attr b = some attrB ∧
      attr'.name = attrB.name ∧ attr'.owner = attrB.owner := by
    intro b attr' found
    cases thereB : s.attr b with
    | none =>
      rw [attrs,stored_attr] at found
      split at found
      next same =>
        rw [← same,thereB] at found
        cases found
      next =>
        rw [thereB] at found
        cases found
    | some attrB =>
      obtain ⟨other,found',named,owned,_⟩ := moved b attrB thereB
      obtain rfl := Option.some.inj (found.symm.trans found')
      exact ⟨attrB,rfl,named,owned⟩
  refine ⟨⟨?_,?_⟩,iff_of_true ?_ trivial,?_⟩
  · intro el n b found
    rw [caches] at found
    obtain ⟨attrB,thereB,owned,named⟩ := cached.entry el n b found
    obtain ⟨attr',found',named',owned',_⟩ := moved b attrB thereB
    exact ⟨attr',found',owned'.trans owned,named'.trans named⟩
  · intro b attr' found
    obtain ⟨attrB,thereB,_⟩ := back b attr' found
    exact counts ▸ cached.fresh b attrB thereB
  · intro b attr' e found owned
    obtain ⟨attrB,thereB,named',owned'⟩ := back b attr' found
    obtain ⟨present,entry,lower⟩ := tied b attrB e thereB (owned'.symm.trans owned)
    unfold State.htmlAttrName at lower ⊢
    rw [named',caches,htmls]
    exact ⟨has e _ present,entry,lower⟩
  · intro _
    constructor
    · intro b attrB e thereB owned
      obtain ⟨attr',found,named,owned',_⟩ := moved b attrB thereB
      exact ⟨attr',found,named,.inl ⟨owned'.trans owned,has e _ (tied b attrB e thereB owned).1⟩⟩
    · intro b attrB thereB unowned
      obtain ⟨attr',found,named,_,same⟩ := moved b attrB thereB
      constructor
      · intro v written
        obtain ⟨rfl,rfl⟩ := Action.setValue.inj written
        obtain rfl := Option.some.inj (there.symm.trans thereB)
        exact natives unowned
      · intro others
        have different : b ≠ a := by
          rintro rfl
          exact others value rfl
        exact ⟨attr',found,named,by rw [same different]⟩

theorem removed_detached (cached : Cached s) (tied : Tied s) {el : ℕ} {n v : JsString}
    (last : s.native el n = some v) : Detached s el n ((s.removeAttrCore el n).detachAttr el n v).1 := by
  have present : s.hasAttr el n = true := by rw [State.hasAttr,last,Option.isSome_some]
  rw [State.removeAttrCore,if_pos present]
  refine detachAttr_detached cached tied rfl rfl rfl rfl ?_ last
  intro e m elsewhere
  rw [hasAttr_erased]
  rcases not_and_or.mp elsewhere with element | name
  · simp [element]
  · simp [name]

theorem step_sound {action : Action} {t : State} (cached : Cached s) (tied : Tied s)
    (taken : step s action = some t) : Sound s action t := by
  cases action with
  | setAttribute el name value =>
    obtain ⟨_,taken⟩ := Option.ite_none_right_eq_some.mp taken
    obtain ⟨_,taken⟩ := Option.ite_none_right_eq_some.mp taken
    obtain rfl := Option.some.inj taken
    exact withNative_some_sound cached tied trivial (by simp)
  | removeAttribute el name =>
    obtain rfl := Option.some.inj taken
    exact removeAttrCore_sound cached tied Iff.rfl (by simp)
  | toggleAttribute el name force =>
    obtain ⟨valid,taken⟩ := Option.ite_none_right_eq_some.mp taken
    split at taken
    next present =>
      split at taken
      next forced =>
        obtain rfl := Option.some.inj taken
        exact sound_same cached tied (fun _ unforced => absurd forced unforced) (by simp)
      next unforced =>
        obtain rfl := Option.some.inj taken
        exact removeAttrCore_sound cached tied
          ⟨fun apart => apart valid unforced,fun apart _ _ => apart⟩ (by simp)
    next absent =>
      have allowed : Apart s (.toggleAttribute el name force) :=
        fun _ _ present => absurd present absent
      split at taken
      · obtain rfl := Option.some.inj taken
        exact sound_same cached tied allowed (by simp)
      · obtain ⟨_,taken⟩ := Option.ite_none_right_eq_some.mp taken
        obtain rfl := Option.some.inj taken
        exact withNative_some_sound cached tied allowed (by simp)
  | getAttributeNode el name =>
    obtain rfl := Option.some.inj taken
    rw [getAttributeNode_eq]
    split
    next present =>
      exact attrNode_sound cached tied present (iff_of_true trivial (htmlAttrName_idem s el name)) (by simp)
    next => exact sound_same cached tied trivial (by simp)
  | item el name =>
    obtain rfl := Option.some.inj taken
    split
    next present =>
      exact attrNode_sound cached tied present
        ⟨fun apart => apart present,fun named _ => named⟩ (by simp)
    next absent => exact sound_same cached tied (fun present => absurd present absent) (by simp)
  | setAttributeNode el a =>
    obtain ⟨attr,there,taken⟩ := Option.bind_eq_some_iff.mp taken
    split at taken
    next owned =>
      obtain rfl := Option.some.inj taken
      refine sound_same cached tied ?_ (by simp)
      intro attr' there' unowned
      obtain rfl := Option.some.inj (there.symm.trans there')
      rw [owned] at unowned
      cases unowned
    next =>
      obtain ⟨unowned,taken⟩ := Option.ite_none_left_eq_some.mp taken
      have unowned : attr.owner = none := not_not.mp unowned
      have exactly : nativeAccepts attr.name = true → (Apart s (.setAttributeNode el a) ↔
          s.htmlAttrName el attr.name = attr.name) := by
        intro accepted
        constructor
        · intro apart
          exact apart attr there unowned accepted
        · intro named attr' there' _ _
          obtain rfl := Option.some.inj (there.symm.trans there')
          exact named
      cases last : s.native el attr.name with
      | some old =>
        have detached := detachAttr_detached cached tied rfl rfl rfl rfl (fun _ _ _ => rfl) last
        rw [last] at taken
        by_cases accepted : nativeAccepts attr.name = true
        · have taken : some (attached (s.detachAttr el attr.name old).1 el a attr.name attr.value) =
              some t := by
            simpa [State.setAttrCore,accepted,attached] using taken
          obtain rfl := Option.some.inj taken
          exact attached_sound detached there unowned (exactly accepted) (by simp) _
        · have taken : some (s.detachAttr el attr.name old).1 = some t := by
            simpa [State.setAttrCore,accepted] using taken
          obtain rfl := Option.some.inj taken
          refine detached_sound detached ?_ (by simp)
          intro attr' there' _ accepted'
          obtain rfl := Option.some.inj (there.symm.trans there')
          exact absurd accepted' accepted
      | none =>
        rw [last] at taken
        obtain ⟨u,written,rfl⟩ := Option.map_eq_some_iff.mp taken
        obtain ⟨accepted,written⟩ := Option.ite_none_right_eq_some.mp written
        obtain rfl := Option.some.inj written
        have absent : s.cache el attr.name = none := by
          by_contra some_
          obtain ⟨b,entry⟩ := Option.ne_none_iff_exists'.mp some_
          obtain ⟨attrB,thereB,ownedB,namedB⟩ := cached.entry el _ b entry
          have has := (tied b attrB el thereB ownedB).1
          rw [namedB,State.hasAttr,last] at has
          cases has
        have detached : Detached s el attr.name s := ⟨cached,tied,absent,rfl,
          fun b attrB e thereB ownedB =>
            ⟨attrB,thereB,rfl,.inl ⟨ownedB,(tied b attrB e thereB ownedB).1⟩⟩,
          fun _ _ thereB _ => thereB⟩
        exact attached_sound detached there unowned (exactly accepted) (by simp) _
  | removeAttributeNode el a =>
    obtain ⟨attr,there,taken⟩ := Option.bind_eq_some_iff.mp taken
    obtain ⟨owned,taken⟩ := Option.ite_none_right_eq_some.mp taken
    obtain rfl := Option.some.inj taken
    have present := (tied a attr el there owned).1
    obtain ⟨v,last⟩ := Option.isSome_iff_exists.mp present
    rw [last]
    exact detached_sound (removed_detached cached tied last) trivial (by simp)
  | removeNamedItem el name =>
    obtain ⟨v,last,rfl⟩ := Option.map_eq_some_iff.mp taken
    exact detached_sound (removed_detached cached tied last) trivial (by simp)
  | setValue a value =>
    obtain ⟨attr,there,rfl⟩ := Option.map_eq_some_iff.mp taken
    cases owned : attr.owner with
    | none => exact stored_sound cached tied there rfl rfl rfl rfl (fun _ _ has => has) fun _ => rfl
    | some el =>
      by_cases accepted : nativeAccepts attr.name = true
      · simp only [State.setAttrCore,accepted,if_true,Option.getD_some]
        refine stored_sound cached tied there rfl rfl rfl rfl ?_ ?_
        · intro e m has
          refine (hasAttr_written ..).trans ?_
          rw [Bool.or_eq_true]
          exact .inr has
        · intro unowned
          rw [owned] at unowned
          cases unowned
      · simp only [State.setAttrCore,accepted]
        exact stored_sound cached tied there rfl rfl rfl rfl (fun _ _ has => has) fun _ => rfl
  | createAttribute lower name =>
    obtain ⟨_,taken⟩ := Option.ite_none_right_eq_some.mp taken
    obtain rfl := Option.some.inj taken
    exact newAttr_sound cached tied _ _ trivial (by simp)
  | createAttributeNS qn =>
    obtain ⟨_,taken⟩ := Option.ite_none_right_eq_some.mp taken
    obtain rfl := Option.some.inj taken
    exact newAttr_sound cached tied _ _ trivial (by simp)
  | cloneNode a =>
    obtain ⟨attr,there,taken⟩ := Option.bind_eq_some_iff.mp taken
    obtain ⟨value,_,rfl⟩ := Option.map_eq_some_iff.mp taken
    exact newAttr_sound cached tied _ _ trivial (by simp)

end cached

def start (html : ℕ → Bool) (native : ℕ → JsString → Option JsString) : State where
  html := html
  native := native
  attr := fun _ => none
  cache := fun _ _ => none
  made := 0

theorem start_cached (html : ℕ → Bool) (native : ℕ → JsString → Option JsString) :
    Cached (start html native) where
  entry := by
    intro el n a found
    cases found
  fresh := by
    intro a attr there
    cases there

theorem start_tied (html : ℕ → Bool) (native : ℕ → JsString → Option JsString) : Tied (start html native) := by
  intro a attr el there
  cases there

theorem refused_apart {s : State} {action : Action} (refused : step s action = none) : Apart s action := by
  cases action with
  | toggleAttribute el name force =>
    intro valid unforced present
    simp [step,valid,unforced,present] at refused
  | item el name => cases refused
  | removeAttribute el name => cases refused
  | setAttributeNode el a =>
    intro attr there unowned accepted
    rw [step,there,Option.bind_some,if_neg (by simp [unowned]),if_neg (by simp [unowned])] at refused
    cases last : s.native el attr.name with
    | some old => simp [last,State.setAttrCore,accepted] at refused
    | none => simp [last,State.setAttrCore,accepted] at refused
  | _ => trivial

/-- The objects stay those of their elements' attributes, and are let go of with the last value,
in exactly the runs that remove no attribute behind the back of its object. -/
theorem identity_iff (html : ℕ → Bool) (native : ℕ → JsString → Option JsString) (actions : List Action) :
    (Runs.Always step Bound (start html native) actions ∧ Runs.Each step Parted (start html native) actions) ↔
      Runs.Guarded step Apart (start html native) actions := by
  have started := start_cached html native
  have bound := @Runs.always_iff_guarded_unrefused _ _ step Apart Cached Bound
    (fun s action t cached bound taken => by
      have sound := step_sound cached ((bound_iff_tied cached).mp bound) taken
      exact ⟨sound.cached,(bound_iff_tied sound.cached).trans sound.tied⟩)
    (fun s action refused => refused_apart refused) actions (start html native) started
    ((bound_iff_tied started).mpr (start_tied html native))
  rw [bound]
  refine ⟨fun both => both.1,fun guarded => ⟨guarded,?_⟩⟩
  refine @Runs.each_of_guarded _ _ step Apart (fun s => Cached s ∧ Tied s) Parted ?_ _ _
    ⟨started,start_tied html native⟩ guarded
  intro s action t both apart taken
  have sound := step_sound both.1 both.2 taken
  exact ⟨⟨sound.cached,sound.tied.mpr apart⟩,sound.parted apart⟩

/-- `removeAttribute` leaves the object of the attribute with its owner. -/
theorem removed_behind : ¬ Runs.Always step Bound (start (fun _ => true) fun _ _ => none)
    [.setAttribute 0 (js "id") (js "x"),.getAttributeNode 0 (js "id"), .removeAttribute 0 (js "id")] := by
  intro always
  have final := Runs.always_final step always rfl
  have has := (final 0 ⟨some 0,js "id",[]⟩ 0 rfl rfl).1
  cases has

end Sharko.Script.Dom.Attributes
