import Mathlib
import Sharko.Library.Runs
import Sharko.Library.Versions
import Sharko.Script.Dom.Moves
import Sharko.Script.XPath.Nodes

/-! Live node lists and collections: the ids found last are kept with the versions of the child
lists and the attributes they were found at. -/

namespace Sharko.Script.Dom.LiveCollections

open Sharko.Library NodeTree XPath

/-- What does not change of an element: its native name and the stamps of its wrapper. -/
structure Element where
  local_ : JsString
  html : Bool
  stamped : Bool
  elementPrefix : Option JsString

inductive Query where
  | childNodes (src : ℕ)
  | children (src : ℕ)
  | byTagName (scope : ℕ) (qn : JsString)
  | byClassName (scope : ℕ) (tokens : List JsString)
  | byName (scope : ℕ) (value : JsString)
  deriving DecidableEq

/-- The node whose list of children the query reads, if it reads nothing else. -/
def Query.src : Query → Option ℕ
  | childNodes src => some src
  | children src => some src
  | _ => none

def Query.node : Query → ℕ
  | childNodes src => src
  | children src => src
  | byTagName scope _ => scope
  | byClassName scope _ => scope
  | byName scope _ => scope

structure Collection where
  query : Query
  qualified : Bool
  kept : Option ((ℕ × ℕ) × List ℕ)

/-- A page with its mutation epochs; `taken` has the parents whose children `convertNodes` changed
since the last `treeChanged`, and `moved` says that it did since `state.tree` was counted up. -/
structure State where
  nodes : NodeTree
  attributes : ℕ → JsString → Option JsString
  tree : ℕ
  attr : ℕ
  untracked : ℕ
  childVer : ℕ → ℕ
  prefixedElements : ℕ
  taken : List ℕ
  moved : Bool
  collections : List Collection

section queries

variable (element : ℕ → Option Element)

def isInput (id : ℕ) : Bool :=
  match element id with
  | some e => e.html && e.local_ == js "input"
  | none => false

def domChildren (t : NodeTree) (id : ℕ) : List ℕ := if isInput element id then [] else childIds t id

def below (t : NodeTree) (scope : ℕ) : List ℕ :=
  (t.children scope).nodes.filter fun x =>
    (element x).isSome && !(((t.children scope).ancestors x ++ [scope]).any (isInput element))

def qualifiedNameOf (e : Element) : JsString :=
  match e.elementPrefix with
  | some p => if p = [] then e.local_ else p ++ 58 :: e.local_
  | none => e.local_

def hasTag (qualified : Bool) (qn : JsString) (e : Element) : Bool :=
  if qualified then
    if e.stamped then qualifiedNameOf e == asciiLower qn else qualifiedNameOf e == qn
  else qn == js "*" || (if e.html then e.local_ == asciiLower qn else e.local_ == qn)

def isSpace (c : UInt16) : Bool := c == 32 || c == 9 || c == 10 || c == 13 || c == 12

def hasToken (list : Option JsString) (token : JsString) : Bool :=
  ((list.getD []).splitOnP isSpace).contains token

def compute (s : State) (qualified : Bool) : Query → List ℕ
  | .childNodes src => domChildren element s.nodes src
  | .children src => (domChildren element s.nodes src).filter fun c => (element c).isSome
  | .byTagName scope qn =>
    (below element s.nodes scope).filter fun x => (element x).any (hasTag qualified qn)
  | .byClassName scope tokens =>
    if tokens = [] then []
    else (below element s.nodes scope).filter fun x =>
      tokens.all (hasToken (s.attributes x (js "class")))
  | .byName scope value =>
    (below element s.nodes scope).filter fun x => s.attributes x (js "name") == some value

end queries

def byQualifiedName (s : State) : Query → Bool
  | .byTagName _ qn => qn ≠ js "*" && (s.prefixedElements ≠ 0 || qn.contains 58)
  | _ => false

def stampOf (s : State) (query : Query) : ℕ × ℕ :=
  match query.src with
  | some src => (s.untracked,s.childVer src)
  | none => (s.tree * 1048576 + s.attr,0)

/-- The query may have changed under a native move that no version shows. -/
def Stale (s : State) (query : Query) : Prop :=
  match query.src with
  | some src => src ∈ s.taken
  | none => s.moved = true

def childListChanged (s : State) (pid : ℕ) (other : Option ℕ) : State :=
  let v := s.tree + 1
  { s with
    tree := v
    childVer := fun q => if q = pid ∨ other = some q then v else s.childVer q
    taken := s.taken.filter fun q => q ≠ pid ∧ other ≠ some q
    moved := false }

def treeChanged (s : State) : State :=
  { s with tree := s.tree + 1, untracked := s.untracked + 1, taken := [], moved := false }

section step

variable (element : ℕ → Option Element)

def versions : Versions State (Query × Bool) (List ℕ) (ℕ × ℕ) where
  stamp s key := stampOf s key.1
  value s key := compute element s key.2 key.1
  dirty s key := Stale s key.1

def ids (s : State) (c : Collection) : (ℕ × ℕ) × List ℕ :=
  (versions element).read s (c.query,c.qualified) c.kept

def fresh (s : State) (query : Query) : List ℕ := compute element s (byQualifiedName s query) query

/-- What scripts do. `replaceAll` is the change under `textContent` and `innerHTML` with what the
native side makes, `take` one native move of `convertNodes`. -/
inductive Action where
  | create (id : ℕ) (attributes : JsString → Option JsString)
  | insert (pid nid : ℕ) (fragment : Bool) (ref : Option ℕ)
  | remove (nid : ℕ)
  | replaceChild (pid nid : ℕ) (fragment : Bool) (cid : ℕ)
  | replaceAll (pid : ℕ) (added : NodeTree) (attributes : ℕ → JsString → Option JsString)
  | replaceChildren (pid nid : ℕ) (fragment : Bool)
  | take (frag nid : ℕ)
  | treeChanged
  | setAttr (id : ℕ) (name : JsString) (value : Option JsString)
  | make (query : Query)
  | access (i : ℕ)

/-- One action; none where it throws and changes nothing. -/
def step (s : State) : Action → Option State
  | .create id attributes =>
    if id ∈ s.nodes.nodes then none
    else some { s with
      nodes := .cons id .nil s.nodes
      attributes := Function.update s.attributes id attributes
      prefixedElements := s.prefixedElements +
        if (element id).any fun e => e.elementPrefix.isSome then 1 else 0 }
  | .insert pid nid fragment ref =>
    if fragment = true ∧ childIds s.nodes nid = [] then some s
    else (insertBefore s.nodes pid nid fragment ref).map fun t =>
      childListChanged { s with nodes := t } pid (source s.nodes fragment nid)
  | .remove nid =>
    (parent s.nodes nid).map fun pid =>
      childListChanged { s with nodes := s.nodes.detach nid } pid none
  | .replaceChild pid nid fragment cid =>
    if nid = cid ∨ parent s.nodes cid ≠ some pid then none
    else (insertBefore s.nodes pid nid fragment (some cid)).map fun t =>
      childListChanged { s with nodes := t.detach cid } pid (source s.nodes fragment nid)
  | .replaceAll pid added attributes =>
    if pid ∉ s.nodes.nodes ∨ ¬added.nodes.Nodup ∨ ∃ x ∈ added.nodes, x ∈ s.nodes.nodes then none
    else some (childListChanged { s with
      nodes := (freeChildren s.nodes pid).graft pid 0 added
      attributes := fun x => if x ∈ added.nodes then attributes x else s.attributes x } pid none)
  | .replaceChildren pid nid fragment =>
    if pid ∉ s.nodes.nodes then none
    else (insertBefore (freeChildren s.nodes pid) pid nid fragment none).map fun t =>
      childListChanged (treeChanged { s with nodes := t }) pid none
  | .take frag nid =>
    (insertBefore s.nodes frag nid false none).map fun t =>
      { s with
        nodes := t
        taken := frag :: (parent s.nodes nid).toList ++ s.taken
        moved := true }
  | .treeChanged => some (treeChanged s)
  | .setAttr id name value =>
    if value = none ∧ s.attributes id name = none then some s
    else some { s with
      attributes := Function.update s.attributes id (Function.update (s.attributes id) name value)
      attr := s.attr + 1 }
  | .make query =>
    let c : Collection := ⟨query,byQualifiedName s query,none⟩
    if query.node ∉ s.nodes.nodes then none
    else some { s with collections := s.collections ++ [{ c with kept := some (ids element s c) }] }
  | .access i =>
    (s.collections[i]?).map fun c =>
      { s with collections := s.collections.set i { c with kept := some (ids element s c) } }

def Sees (s : State) : Action → State → Prop
  | .access i,_ => ∀ c, s.collections[i]? = some c → (ids element s c).2 = fresh element s c.query
  | _,_ => True

end step

/-- A collection is not read between a native move of `convertNodes` and the version that shows it,
and one by tag name not once elements got prefixes that its test does not look at. -/
def Allowed (s : State) : Action → Prop
  | .access i => ∀ c, s.collections[i]? = some c →
    ¬Stale s c.query ∧ c.qualified = byQualifiedName s c.query
  | _ => True

structure Page where
  nodes : NodeTree
  nodup : nodes.nodes.Nodup
  attributes : ℕ → JsString → Option JsString

instance (s : State) (query : Query) : Decidable (Stale s query) := by
  unfold Stale
  cases query.src <;> infer_instance

instance (s : State) : ∀ action, Decidable (Allowed s action)
  | .access i => inferInstanceAs (Decidable (∀ c ∈ s.collections[i]?, _))
  | .create .. | .insert .. | .remove .. | .replaceChild .. | .replaceAll .. | .replaceChildren .. =>
    isTrue trivial
  | .take .. | .treeChanged | .setAttr .. | .make .. => isTrue trivial

def start (page : Page) : State :=
  { nodes := page.nodes, attributes := page.attributes, tree := 1, attr := 1, untracked := 1
    childVer := fun _ => 0, prefixedElements := 0, taken := [], moved := false, collections := [] }

section laws

variable {element : ℕ → Option Element} {s next : State}

/-- The versions of parents are no later than the count of changes, and every collection is right. -/
structure Valid (element : ℕ → Option Element) (s : State) : Prop where
  nodup : s.nodes.nodes.Nodup
  past : ∀ q, s.childVer q ≤ s.tree
  inside : ∀ c ∈ s.collections, c.query.node ∈ s.nodes.nodes
  right : ∀ c ∈ s.collections, (versions element).Right s (c.query,c.qualified) c.kept

theorem compute_congr {t : State} {query : Query} (qualified : Bool)
    (children : ∀ q, t.nodes.children q = s.nodes.children q)
    (attributes : ∀ x ∈ s.nodes.nodes, t.attributes x = s.attributes x) :
    compute element t qualified query = compute element s qualified query := by
  have lists : ∀ q, domChildren element t.nodes q = domChildren element s.nodes q := by
    intro q
    rw [domChildren,domChildren,childIds,childIds,children]
  have scopes : ∀ q, below element t.nodes q = below element s.nodes q := by
    intro q
    rw [below,below,children]
  have inside : ∀ scope, ∀ x ∈ below element s.nodes scope, t.attributes x = s.attributes x := by
    intro scope x there
    exact attributes x ((Forest.children_sublist scope _).subset (List.mem_of_mem_filter there))
  cases query with
  | childNodes src => exact lists src
  | children src => rw [compute,compute,lists]
  | byTagName scope qn => rw [compute,compute,scopes]
  | byClassName scope tokens =>
    rw [compute,compute,scopes]
    split
    · rfl
    · apply List.filter_congr
      intro x there
      rw [inside scope x there]
  | byName scope value =>
    rw [compute,compute,scopes]
    apply List.filter_congr
    intro x there
    rw [inside scope x there]

theorem compute_src {t : State} {query : Query} {src : ℕ} (listed : query.src = some src)
    (same : childIds t.nodes src = childIds s.nodes src) (qualified : Bool) :
    compute element t qualified query = compute element s qualified query := by
  have lists : domChildren element t.nodes src = domChildren element s.nodes src := by
    rw [domChildren,domChildren,same]
  cases query with
  | childNodes =>
    cases listed
    exact lists
  | children =>
    cases listed
    rw [compute,compute,lists]
  | byTagName => cases listed
  | byClassName => cases listed
  | byName => cases listed

/-- What is to be shown of a step: the list of children stays, becomes stale or gets a new version,
and so does what other queries read. -/
theorem advances_of {t : State} {query : Query} {qualified : Bool}
    (lists : ∀ src, query.src = some src → s.untracked ≤ t.untracked ∧ s.childVer src ≤ t.childVer src ∧
      (t.untracked = s.untracked → t.childVer src = s.childVer src → src ∉ t.taken →
        src ∉ s.taken ∧ childIds t.nodes src = childIds s.nodes src))
    (epochs : s.tree ≤ t.tree ∧ s.attr ≤ t.attr) (others : t.tree = s.tree → t.attr = s.attr → t.moved = false →
      s.moved = false ∧ compute element t qualified query = compute element s qualified query) :
    (versions element).Advances s t (query,qualified) := by
  change stampOf s query ≤ stampOf t query ∧ (stampOf t query = stampOf s query →
    ¬Stale t query → ¬Stale s query ∧ compute element t qualified query = compute element s qualified query)
  cases listed : query.src with
  | some src =>
    obtain ⟨grows,later,stays⟩ := lists src listed
    simp only [stampOf,Stale,listed]
    refine ⟨⟨grows,later⟩,?_⟩
    intro same clean
    obtain ⟨before,kept⟩ := stays (congrArg Prod.fst same) (congrArg Prod.snd same) clean
    exact ⟨before,compute_src listed kept qualified⟩
  | none =>
    obtain ⟨tree,attr⟩ := epochs
    simp only [stampOf,Stale,listed]
    refine ⟨⟨?_,le_rfl⟩,?_⟩
    · change s.tree * 1048576 + s.attr ≤ t.tree * 1048576 + t.attr
      omega
    · intro same clean
      have epoch : t.tree * 1048576 + t.attr = s.tree * 1048576 + s.attr := congrArg Prod.fst same
      obtain ⟨before,kept⟩ := others (by omega) (by omega) (Bool.not_eq_true _ ▸ clean)
      exact ⟨by simp [before],kept⟩

theorem treeChanged_advances (t : NodeTree) (key : Query × Bool) :
    (versions element).Advances s (treeChanged { s with nodes := t }) key := by
  apply advances_of
  · intro src _
    refine ⟨Nat.le_succ _,le_rfl,?_⟩
    intro same
    change s.untracked + 1 = s.untracked at same
    omega
  · exact ⟨Nat.le_succ _,le_rfl⟩
  · intro same
    change s.tree + 1 = s.tree at same
    omega

theorem childListChanged_advances (past : ∀ q, s.childVer q ≤ s.tree) {t : NodeTree}
    {attributes : ℕ → JsString → Option JsString} {pid : ℕ} {other : Option ℕ} {query : Query}
    (qualified : Bool) (frame : ∀ src, query.src = some src → src ≠ pid → other ≠ some src →
      childIds t src = childIds s.nodes src) : (versions element).Advances s
      (childListChanged { s with nodes := t, attributes := attributes } pid other) (query,qualified) := by
  apply advances_of
  · intro src listed
    have past := past src
    refine ⟨le_rfl,?_,?_⟩
    · change s.childVer src ≤ if src = pid ∨ other = some src then s.tree + 1 else s.childVer src
      split <;> omega
    · intro _ same clean
      change (if src = pid ∨ other = some src then s.tree + 1 else s.childVer src) = _ at same
      change src ∉ s.taken.filter fun q => decide (q ≠ pid ∧ other ≠ some q) at clean
      split at same
      next => omega
      next away =>
        rw [not_or] at away
        simp only [List.mem_filter,away.1,away.2,ne_eq,not_false_iff,and_self,decide_true,and_true] at clean
        exact ⟨clean,frame src listed away.1 away.2⟩
  · exact ⟨Nat.le_succ _,le_rfl⟩
  · intro same
    change s.tree + 1 = s.tree at same
    omega

theorem childVer_past (past : ∀ q, s.childVer q ≤ s.tree) (pid : ℕ) (other : Option ℕ) (q : ℕ) :
    (childListChanged s pid other).childVer q ≤ (childListChanged s pid other).tree := by
  have before := past q
  change (if q = pid ∨ other = some q then s.tree + 1 else s.childVer q) ≤ s.tree + 1
  split <;> omega

theorem src_node {query : Query} {src : ℕ} (listed : query.src = some src) : query.node = src := by
  cases query with
  | childNodes => exact Option.some.inj listed
  | children => exact Option.some.inj listed
  | byTagName => cases listed
  | byClassName => cases listed
  | byName => cases listed

theorem Valid.advance (valid : Valid element s) (nodup : next.nodes.nodes.Nodup)
    (past : ∀ q, next.childVer q ≤ next.tree) (grows : ∀ x ∈ s.nodes.nodes, x ∈ next.nodes.nodes)
    (same : next.collections = s.collections) (advances : ∀ query qualified, query.node ∈ s.nodes.nodes →
      (versions element).Advances s next (query,qualified)) : Valid element next := by
  constructor
  · exact nodup
  · exact past
  · rw [same]
    exact fun c there => grows _ (valid.inside c there)
  · rw [same]
    exact fun c there => (valid.right c there).advance (advances _ _ (valid.inside c there))

theorem Valid.moved (valid : Valid element s) {t : NodeTree} (perm : t.nodes.Perm s.nodes.nodes)
    {pid : ℕ} {other : Option ℕ} (frame : ∀ q, q ≠ pid → other ≠ some q → childIds t q = childIds s.nodes q) :
    Valid element (childListChanged { s with nodes := t } pid other) := by
  apply valid.advance
  · exact perm.nodup_iff.mpr valid.nodup
  · exact childVer_past valid.past pid other
  · exact fun x there => perm.mem_iff.mpr there
  · rfl
  · intro query qualified _
    exact childListChanged_advances valid.past qualified fun src _ => frame src

section steps

variable (valid : Valid element s)
include valid

theorem create_valid {id : ℕ} {attributes : JsString → Option JsString}
    (taken : step element s (.create id attributes) = some next) : Valid element next := by
  rw [step] at taken
  split at taken
  next => cases taken
  next fresh =>
    cases taken
    have children : ∀ q, (Forest.cons id .nil s.nodes).children q = s.nodes.children q := by
      intro q
      rw [Forest.children_cons,Forest.nodes_nil,if_neg List.not_mem_nil]
      split
      next same => rw [← same,Forest.children_of_not_mem fresh]
      next => rfl
    apply valid.advance
    · simpa [fresh] using valid.nodup
    · exact valid.past
    · exact fun x there => List.mem_cons_of_mem _ there
    · rfl
    · intro query qualified _
      apply advances_of
      · intro src _
        refine ⟨le_rfl,le_rfl,fun _ _ clean => ⟨clean,?_⟩⟩
        rw [childIds,children,childIds]
      · exact ⟨le_rfl,le_rfl⟩
      · intro _ _ clean
        refine ⟨clean,compute_congr qualified children ?_⟩
        intro x there
        have other : x ≠ id := fun same => fresh (same ▸ there)
        exact Function.update_of_ne other _ _

theorem insert_valid {pid nid : ℕ} {fragment : Bool} {ref : Option ℕ}
    (taken : step element s (.insert pid nid fragment ref) = some next) : Valid element next := by
  rw [step] at taken
  split at taken
  next =>
    cases taken
    exact valid
  next =>
    obtain ⟨t,done,rfl⟩ := Option.map_eq_some_iff.mp taken
    exact valid.moved (insertBefore_perm done) fun q => childIds_insertBefore valid.nodup done

theorem remove_valid {nid : ℕ} (taken : step element s (.remove nid) = some next) : Valid element next := by
  obtain ⟨pid,child,rfl⟩ := Option.map_eq_some_iff.mp taken
  have inside := child_inside child
  apply valid.moved (Forest.detach_perm inside)
  intro q away _
  apply childIds_detach valid.nodup inside
  rw [child]
  exact fun same => away (Option.some.inj same).symm

theorem replaceChild_valid {pid nid : ℕ} {fragment : Bool} {cid : ℕ}
    (taken : step element s (.replaceChild pid nid fragment cid) = some next) : Valid element next := by
  rw [step] at taken
  split at taken
  next => cases taken
  next able =>
    rw [not_or,not_not] at able
    obtain ⟨t,done,rfl⟩ := Option.map_eq_some_iff.mp taken
    have child := parent_replaced valid.nodup done able.2 able.1
    have inside := child_inside child
    apply valid.moved ((Forest.detach_perm inside).trans (insertBefore_perm done))
    intro q away other
    rw [childIds_detach (insertBefore_nodup valid.nodup done) inside,
      childIds_insertBefore valid.nodup done away other]
    rw [child]
    exact fun same => away (Option.some.inj same).symm

theorem replaceAll_valid {pid : ℕ} {added : NodeTree} {attributes : ℕ → JsString → Option JsString}
    (taken : step element s (.replaceAll pid added attributes) = some next) : Valid element next := by
  rw [step] at taken
  split at taken
  next => cases taken
  next able =>
    rw [not_or,not_or,not_not,not_not] at able
    obtain ⟨inside,nodup,fresh⟩ := able
    cases taken
    have free := freeChildren_perm inside
    have freed := free.nodup_iff.mpr valid.nodup
    have there := free.mem_iff.mpr inside
    have apart : ∀ x ∈ added.nodes, x ∉ (freeChildren s.nodes pid).nodes :=
      fun x new old => fresh ⟨x,new,free.mem_iff.mp old⟩
    have perm : ((freeChildren s.nodes pid).graft pid 0 added).nodes.Perm _ := Forest.graft_perm there
    apply valid.advance
    · apply perm.nodup_iff.mpr
      exact freed.append nodup fun x old new => apart x new old
    · exact childVer_past valid.past pid none
    · exact fun x old => perm.mem_iff.mpr (List.mem_append_left _ (free.mem_iff.mpr old))
    · rfl
    · intro query qualified node
      apply childListChanged_advances valid.past qualified
      intro src listed away _
      rw [src_node listed] at node
      have old : src ∉ added.nodes := fun new => fresh ⟨src,new,node⟩
      rw [childIds,Forest.roots_children_graft freed there apart,if_neg old,if_neg away]
      exact childIds_freed valid.nodup inside (Ne.symm away)

theorem replaceChildren_valid {pid nid : ℕ} {fragment : Bool}
    (taken : step element s (.replaceChildren pid nid fragment) = some next) : Valid element next := by
  rw [step] at taken
  split at taken
  next => cases taken
  next inside =>
    rw [not_not] at inside
    obtain ⟨t,done,rfl⟩ := Option.map_eq_some_iff.mp taken
    have perm := (insertBefore_perm done).trans (freeChildren_perm inside)
    have past : ∀ q, (treeChanged { s with nodes := t }).childVer q ≤ s.tree + 1 :=
      fun q => (valid.past q).trans (Nat.le_succ _)
    apply valid.advance
    · exact perm.nodup_iff.mpr valid.nodup
    · exact childVer_past past pid none
    · exact fun x there => perm.mem_iff.mpr there
    · rfl
    · intro query qualified _
      apply (treeChanged_advances t (query,qualified)).trans
      exact childListChanged_advances past qualified fun _ _ _ _ => rfl

theorem take_valid {frag nid : ℕ} (taken : step element s (.take frag nid) = some next) :
    Valid element next := by
  obtain ⟨t,done,rfl⟩ := Option.map_eq_some_iff.mp taken
  have perm := insertBefore_perm done
  apply valid.advance
  · exact perm.nodup_iff.mpr valid.nodup
  · exact valid.past
  · exact fun x there => perm.mem_iff.mpr there
  · rfl
  · intro query qualified _
    apply advances_of
    · intro src _
      refine ⟨le_rfl,le_rfl,?_⟩
      intro _ _ clean
      change src ∉ frag :: (parent s.nodes nid).toList ++ s.taken at clean
      rw [List.mem_append,List.mem_cons,not_or,not_or,Option.mem_toList] at clean
      exact ⟨clean.2,childIds_insertBefore valid.nodup done clean.1.1 clean.1.2⟩
    · exact ⟨le_rfl,le_rfl⟩
    · intro _ _ clean
      cases clean

theorem setAttr_valid {id : ℕ} {name : JsString} {value : Option JsString}
    (taken : step element s (.setAttr id name value) = some next) : Valid element next := by
  rw [step] at taken
  split at taken
  next =>
    cases taken
    exact valid
  next =>
    cases taken
    apply valid.advance
    · exact valid.nodup
    · exact valid.past
    · exact fun x there => there
    · rfl
    · intro query qualified _
      apply advances_of
      · intro src _
        exact ⟨le_rfl,le_rfl,fun _ _ clean => ⟨clean,rfl⟩⟩
      · exact ⟨le_rfl,Nat.le_succ _⟩
      · intro _ same
        change s.attr + 1 = s.attr at same
        omega

theorem make_valid {query : Query} (taken : step element s (.make query) = some next) : Valid element next := by
  rw [step] at taken
  split at taken
  next => cases taken
  next inside =>
    rw [not_not] at inside
    cases taken
    refine ⟨valid.nodup,valid.past,?_,?_⟩
    · intro c there
      rcases List.mem_append.mp there with old | new
      · exact valid.inside c old
      · rw [List.mem_singleton.mp new]
        exact inside
    · intro c there
      rcases List.mem_append.mp there with old | new
      · exact valid.right c old
      · rw [List.mem_singleton.mp new]
        exact Versions.right_read Versions.right_none

theorem access_valid {i : ℕ} (taken : step element s (.access i) = some next) : Valid element next := by
  obtain ⟨c,held,rfl⟩ := Option.map_eq_some_iff.mp taken
  have member := List.mem_of_getElem? held
  refine ⟨valid.nodup,valid.past,?_,?_⟩
  · intro d there
    rcases List.mem_or_eq_of_mem_set there with old | rfl
    · exact valid.inside d old
    · exact valid.inside c member
  · intro d there
    rcases List.mem_or_eq_of_mem_set there with old | rfl
    · exact valid.right d old
    · exact Versions.right_read (valid.right c member)

theorem step_valid (action : Action) (taken : step element s action = some next) : Valid element next := by
  cases action with
  | create => exact create_valid valid taken
  | insert => exact insert_valid valid taken
  | remove => exact remove_valid valid taken
  | replaceChild => exact replaceChild_valid valid taken
  | replaceAll => exact replaceAll_valid valid taken
  | replaceChildren => exact replaceChildren_valid valid taken
  | take => exact take_valid valid taken
  | treeChanged =>
    cases taken
    apply valid.advance
    · exact valid.nodup
    · exact fun q => (valid.past q).trans (Nat.le_succ _)
    · exact fun x there => there
    · rfl
    · exact fun query qualified _ => treeChanged_advances s.nodes (query,qualified)
  | setAttr => exact setAttr_valid valid taken
  | make => exact make_valid valid taken
  | access => exact access_valid valid taken

theorem step_sees (action : Action) (allowed : Allowed s action) : Sees element s action next := by
  cases action with
  | access i =>
    intro c held
    obtain ⟨clean,same⟩ := allowed c held
    have right := valid.right c (List.mem_of_getElem? held)
    rw [ids,Versions.read_value right clean,fresh,← same]
    rfl
  | create => exact trivial
  | insert => exact trivial
  | remove => exact trivial
  | replaceChild => exact trivial
  | replaceAll => exact trivial
  | replaceChildren => exact trivial
  | take => exact trivial
  | treeChanged => exact trivial
  | setAttr => exact trivial
  | make => exact trivial

end steps

end laws

theorem start_valid (element : ℕ → Option Element) (page : Page) : Valid element (start page) := by
  constructor
  · exact page.nodup
  · exact fun q => Nat.zero_le _
  · exact fun c there => absurd there List.not_mem_nil
  · exact fun c there => absurd there List.not_mem_nil

/-- In a run that reads no collection between a native move of `convertNodes` and its version, every
access to a live collection sees what a new query would give. -/
theorem collections_live (element : ℕ → Option Element) (page : Page) (actions : List Action)
    (guarded : Runs.Guarded (step element) Allowed (start page) actions) :
    Runs.Each (step element) (Sees element) (start page) actions := by
  apply Runs.each_of_guarded (step element) ?_ (start_valid element page) guarded
  intro s action next valid allowed taken
  exact ⟨step_valid valid action taken,step_sees valid action allowed⟩

def family : Page :=
  { nodes := .cons 1 (.cons 2 .nil .nil) (.cons 3 .nil .nil), nodup := by decide
    attributes := fun _ _ => none }

theorem collections_live_remove :
    Runs.Guarded (step fun _ => none) Allowed (start family) [.make (.childNodes 1),.remove 2,.access 0] ∧
      Runs.Each (step fun _ => none) (Sees fun _ => none) (start family)
        [.make (.childNodes 1),.remove 2,.access 0] := by
  have guarded : Runs.Guarded (step fun _ => none) Allowed (start family)
      [.make (.childNodes 1),.remove 2,.access 0] := by decide
  exact ⟨guarded,collections_live _ family _ guarded⟩

/-- `append(child, object)` on another element, where the conversion of the object throws. -/
theorem convertNodes_stale : ¬∀ (element : ℕ → Option Element) (page : Page) (actions : List Action),
      Runs.Each (step element) (Sees element) (start page) actions := by
  intro all
  have each : Runs.Each (step fun _ => none) (Sees fun _ => none) (start family)
      ([.make (.childNodes 1),.take 3 2] ++ [.access 0]) := all _ family _
  have last := Runs.each_at (step fun _ => none) each rfl rfl
  have same := last _ rfl
  revert same
  decide

end Sharko.Script.Dom.LiveCollections
