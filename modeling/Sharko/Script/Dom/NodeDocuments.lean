import Mathlib
import Sharko.Library.Runs
import Sharko.Script.Dom.Moves

/-! `ownerDocument`: the document of a tree is known by its root, which is a document or has a
wrapper that carries one. -/

namespace Sharko.Script.Dom.NodeDocuments

open Sharko.Library NodeTree

/-- The trees of a page, the documents among their roots, the nodes with a wrapper and the
documents that wrappers carry. -/
structure State where
  tree : NodeTree
  document : ℕ
  detached : List ℕ
  cache : List ℕ
  nodeDocs : ℕ → Option ℕ

variable (s : State)

def IsDocument (d : ℕ) : Prop := d = s.document ∨ d ∈ s.detached

instance (d : ℕ) : Decidable (IsDocument s d) := inferInstanceAs (Decidable (_ ∨ _))

def recorded (r : ℕ) : ℕ :=
  if r ∈ s.cache then (s.nodeDocs r).getD s.document else s.document

def ownerDocumentOf (id : ℕ) : ℕ :=
  if s.detached = [] then s.document
  else
    let r := rootOf s.tree id
    if r = s.document then s.document
    else if r ∈ s.cache ∧ r ∈ s.detached then r
    else recorded s r

def wrapNode (id : ℕ) : State := { s with cache := if id ∈ s.cache then s.cache else id :: s.cache }

def record (id d : ℕ) : State :=
  { s with nodeDocs := Function.update s.nodeDocs id (if d = s.document then none else some d) }

def ownDoc (doc w : ℕ) : State :=
  if doc = s.document then s else { s with nodeDocs := Function.update s.nodeDocs w (some doc) }

def removeCore (pid nid : ℕ) : State :=
  let t := { s with tree := s.tree.detach nid }
  if s.detached = [] ∨ nid ∉ s.cache then t
  else record (wrapNode t pid) nid (ownerDocumentOf (wrapNode t pid) pid)

/-- What a page does with nodes. `parse` is a node that only the native side made, `replaceAll` the
change under `textContent`, `innerHTML` and `replaceChildren`, `extract` a node that `rangeProcess`
takes to its fragment. -/
inductive Action where
  | wrap (id : ℕ)
  | createDocument (id : ℕ)
  | createNode (doc id : ℕ)
  | parse (id : ℕ)
  | insert (pid nid : ℕ) (fragment : Bool) (ref : Option ℕ)
  | remove (nid : ℕ)
  | replaceChild (pid nid : ℕ) (fragment : Bool) (cid : ℕ)
  | replaceAll (pid : ℕ) (node : Option (ℕ × Bool))
  | adopt (doc nid : ℕ)
  | extract (c frag : ℕ)

/-- One action; none where it throws and changes nothing. -/
def step : Action → Option State
  | .wrap id => if id ∈ s.tree.nodes then some (wrapNode s id) else none
  | .createDocument id =>
    if id ∈ s.tree.nodes then none
    else some { s with
      tree := .cons id .nil s.tree, detached := id :: s.detached, cache := id :: s.cache }
  | .createNode doc id =>
    if id ∈ s.tree.nodes ∨ ¬IsDocument s doc then none
    else some (ownDoc { s with tree := .cons id .nil s.tree, cache := id :: s.cache } doc id)
  | .parse id =>
    if id ∈ s.tree.nodes then none else some { s with tree := .cons id .nil s.tree }
  | .insert pid nid fragment ref =>
    if IsDocument s nid then none
    else (insertBefore s.tree pid nid fragment ref).map fun t => { s with tree := t }
  | .remove nid => (parent s.tree nid).map fun pid => removeCore s pid nid
  | .replaceChild pid nid fragment cid =>
    if IsDocument s nid ∨ nid = cid ∨ parent s.tree cid ≠ some pid then none
    else (insertBefore s.tree pid nid fragment (some cid)).map fun t => { s with tree := t.detach cid }
  | .replaceAll pid node =>
    if pid ∉ s.tree.nodes then none
    else
      let t := freeChildren s.tree pid
      match node with
      | none => some { s with tree := t }
      | some (nid,fragment) =>
        if IsDocument s nid then none
        else (insertBefore t pid nid fragment none).map fun t => { s with tree := t }
  | .adopt doc nid =>
    if ¬IsDocument s doc ∨ IsDocument s nid ∨ nid ∉ s.cache then none
    else
      match parent s.tree nid with
      | none => some (record s nid doc)
      | some pid => some (record (removeCore s pid nid) nid doc)
  | .extract c frag =>
    if frag ∉ s.tree.nodes ∨ frag ∈ s.cache ∨ parent s.tree frag ≠ none then none
    else (parent s.tree c).bind fun pid =>
      let t := removeCore s pid c
      (insertBefore t.tree frag c false none).map fun u => { t with tree := u }

def start (document : ℕ) : State :=
  { tree := .cons document .nil .nil, document := document, detached := [], cache := [document]
    nodeDocs := fun _ => none }

def carried : Action → List ℕ
  | .insert _ nid fragment _ => (moved s.tree fragment nid).nodes
  | .replaceChild _ nid fragment _ => (moved s.tree fragment nid).nodes
  | .replaceAll pid (some (nid,fragment)) => (moved (freeChildren s.tree pid) fragment nid).nodes
  | .adopt _ nid => subtree s.tree nid
  | _ => []

def destination : Action → ℕ
  | .insert pid _ _ _ => ownerDocumentOf s pid
  | .replaceChild pid _ _ _ => ownerDocumentOf s pid
  | .replaceAll pid _ => ownerDocumentOf s pid
  | .adopt doc _ => doc
  | _ => s.document

/-- Every node that scripts hold keeps its document, but for those inserted or adopted. -/
def Kept (action : Action) (next : State) : Prop :=
  ∀ x ∈ s.cache, ownerDocumentOf next x =
    if x ∈ carried s action then destination s action else ownerDocumentOf s x

/-- The root that the node comes to have carries the document that the node is in. -/
def Keeps (x : ℕ) : Action → Prop
  | .remove nid => x ∈ subtree s.tree nid → nid ∈ s.cache ∨ ownerDocumentOf s nid = s.document
  | .replaceChild _ _ _ cid => x ∈ subtree s.tree cid → recorded s cid = ownerDocumentOf s cid
  | .replaceAll pid _ => x ∈ (s.tree.children pid).nodes →
    recorded s (rootOf (s.tree.children pid) x) = ownerDocumentOf s pid
  | .extract c _ => x ∈ subtree s.tree c → ownerDocumentOf s c = s.document
  | _ => True

/-- An action that is taken leaves every node that scripts hold, but for those it inserts or adopts,
to such a root. -/
def Allowed (action : Action) : Prop :=
  (step s action).isSome → ∀ x ∈ s.cache, x ∉ carried s action → Keeps s x action

section laws

variable {s}

theorem mem_wrapNode {id x : ℕ} (held : x ∈ s.cache) : x ∈ (wrapNode s id).cache := by
  change x ∈ if id ∈ s.cache then s.cache else id :: s.cache
  split
  · exact held
  · exact List.mem_cons_of_mem _ held

def docOf (s : State) (r : ℕ) : ℕ := if IsDocument s r then r else recorded s r

/-- Documents are the roots of their trees and have wrappers, and only wrappers carry documents. -/
structure Valid (s : State) : Prop where
  nodup : s.tree.nodes.Nodup
  tops : ∀ d, IsDocument s d → d ∈ s.tree.nodes ∧ s.tree.ancestors d = [] ∧ d ∈ s.cache
  main : s.document ∉ s.detached
  cached : ∀ x ∈ s.cache, x ∈ s.tree.nodes
  owned : ∀ r d, s.nodeDocs r = some d → r ∈ s.cache ∧ d ∈ s.detached

theorem start_valid (document : ℕ) : Valid (start document) := by
  constructor
  · simp [start]
  · rintro d (rfl | other)
    · simp [start,Forest.ancestors]
    · cases other
  · simp [start]
  · simp [start]
  · intro r d carried
    cases carried

section removeCore

variable (pid nid : ℕ)

theorem removeCore_tree : (removeCore s pid nid).tree = s.tree.detach nid := by
  rw [removeCore]
  split <;> rfl

theorem removeCore_cache {x : ℕ} (held : x ∈ s.cache) : x ∈ (removeCore s pid nid).cache := by
  rw [removeCore]
  split
  · exact held
  · exact mem_wrapNode held

theorem removeCore_document (d : ℕ) : IsDocument (removeCore s pid nid) d ↔ IsDocument s d := by
  rw [removeCore]
  split <;> rfl

theorem removeCore_inside {x : ℕ} (child : parent s.tree nid = some pid)
    (inside : x ∈ s.tree.nodes) : x ∈ (removeCore s pid nid).tree.nodes := by
  rw [removeCore_tree]
  exact (Forest.detach_perm (child_inside child)).mem_iff.mpr inside

end removeCore

section valid

variable (valid : Valid s)
include valid

theorem recorded_eq (r : ℕ) : recorded s r = (s.nodeDocs r).getD s.document := by
  rw [recorded]
  split
  next => rfl
  next bare =>
    cases carried : s.nodeDocs r with
    | none => rfl
    | some d => exact absurd (valid.owned r d carried).1 bare

theorem ownerDocumentOf_eq (x : ℕ) : ownerDocumentOf s x = docOf s (rootOf s.tree x) := by
  rw [ownerDocumentOf,docOf]
  by_cases none : s.detached = []
  · have bare : ∀ r, recorded s r = s.document := by
      intro r
      rw [recorded]
      split
      · cases carried : s.nodeDocs r with
        | none => rfl
        | some d =>
          have there := (valid.owned r d carried).2
          rw [none] at there
          cases there
      · rfl
    rw [if_pos none,bare]
    split
    next document =>
      rcases document with same | there
      · exact same.symm
      · rw [none] at there
        cases there
    next => rfl
  · rw [if_neg none]
    by_cases same : rootOf s.tree x = s.document
    · simp only [same,IsDocument,true_or,if_true]
    by_cases there : rootOf s.tree x ∈ s.detached
    · have held := (valid.tops _ (.inr there)).2.2
      simp only [same,there,held,IsDocument,or_true,and_true,if_true,if_false]
    · simp only [same,there,IsDocument,or_self,and_false,if_false]

theorem not_document {x p : ℕ} (child : parent s.tree x = some p) : ¬IsDocument s x := by
  intro document
  rw [parent,(valid.tops x document).2.1] at child
  cases child

theorem document_outside {d : ℕ} (document : IsDocument s d) (p : ℕ) : d ∉ (s.tree.children p).nodes := by
  obtain ⟨inside,top,-⟩ := valid.tops d document
  rw [Forest.mem_children_iff valid.nodup inside,top]
  exact List.not_mem_nil

theorem Valid.retree {u : NodeTree} (perm : u.nodes.Perm s.tree.nodes)
    (tops : ∀ d, IsDocument s d → u.ancestors d = []) : Valid { s with tree := u } := by
  constructor
  · exact perm.nodup_iff.mpr valid.nodup
  · intro d document
    obtain ⟨inside,-,held⟩ := valid.tops d document
    exact ⟨perm.mem_iff.mpr inside,tops d document,held⟩
  · exact valid.main
  · exact fun x held => perm.mem_iff.mpr (valid.cached x held)
  · exact valid.owned

theorem Valid.added {id : ℕ} (fresh : id ∉ s.tree.nodes) : Valid { s with tree := .cons id .nil s.tree } := by
  constructor
  · simp [fresh,valid.nodup]
  · intro d document
    obtain ⟨inside,top,held⟩ := valid.tops d document
    have other : id ≠ d := fun same => fresh (same ▸ inside)
    simp [Forest.ancestors,other,top,inside,held]
  · exact valid.main
  · exact fun x held => List.mem_cons_of_mem _ (valid.cached x held)
  · exact valid.owned

theorem Valid.held {id : ℕ} (inside : id ∈ s.tree.nodes) : Valid { s with cache := id :: s.cache } := by
  constructor
  · exact valid.nodup
  · intro d document
    obtain ⟨there,top,held⟩ := valid.tops d document
    exact ⟨there,top,List.mem_cons_of_mem _ held⟩
  · exact valid.main
  · exact List.forall_mem_cons.mpr ⟨inside,valid.cached⟩
  · intro r d carried
    exact ⟨List.mem_cons_of_mem _ (valid.owned r d carried).1,(valid.owned r d carried).2⟩

theorem Valid.wrapped {id : ℕ} (inside : id ∈ s.tree.nodes) : Valid (wrapNode s id) := by
  rw [wrapNode]
  split
  · exact valid
  · exact valid.held inside

theorem Valid.recorded {id d : ℕ} (held : id ∈ s.cache) (document : IsDocument s d) :
    Valid (record s id d) := by
  refine ⟨valid.nodup,valid.tops,valid.main,valid.cached,?_⟩
  intro r e carried
  change Function.update s.nodeDocs id _ r = some e at carried
  rw [Function.update_apply] at carried
  split at carried
  next same =>
    split at carried
    next => cases carried
    next other =>
      cases carried
      exact ⟨same ▸ held,document.resolve_left other⟩
  next => exact valid.owned r e carried

theorem docOf_eq (r : ℕ) : docOf s r = if IsDocument s r then r else (s.nodeDocs r).getD s.document := by
  rw [docOf,recorded_eq valid]

theorem docOf_document (r : ℕ) : IsDocument s (docOf s r) := by
  rw [docOf_eq valid]
  split
  next document => exact document
  next =>
    cases carried : s.nodeDocs r with
    | none => exact .inl rfl
    | some d => exact .inr (valid.owned r d carried).2

theorem ownerDocumentOf_document (x : ℕ) : IsDocument s (ownerDocumentOf s x) := by
  rw [ownerDocumentOf_eq valid]
  exact docOf_document valid _

theorem docOf_wrapped {id : ℕ} (inside : id ∈ s.tree.nodes) (r : ℕ) : docOf (wrapNode s id) r = docOf s r := by
  rw [docOf_eq valid,docOf_eq (valid.wrapped inside)]
  rfl

theorem docOf_record {id d : ℕ} (held : id ∈ s.cache) (document : IsDocument s d)
    (node : ¬IsDocument s id) (r : ℕ) : docOf (record s id d) r = if r = id then d else docOf s r := by
  rw [docOf_eq (valid.recorded held document),docOf_eq valid]
  change (if IsDocument s r then r else
    (Function.update s.nodeDocs id _ r).getD s.document) = _
  rw [Function.update_apply]
  by_cases here : r = id
  · subst here
    rw [if_neg node,if_pos rfl,if_pos rfl]
    split
    next main => exact main.symm
    next => rfl
  · rw [if_neg here,if_neg here]

section removal

variable {pid nid : ℕ} (child : parent s.tree nid = some pid)
include child

theorem Valid.parted : Valid { s with tree := s.tree.detach nid } := by
  have there := child_inside child
  apply valid.retree (Forest.detach_perm there)
  intro d document
  obtain ⟨within,top,-⟩ := valid.tops d document
  rw [ancestors_detach valid.nodup there within]
  split
  · rfl
  · rw [if_neg (document_outside valid document nid)]
    exact top

theorem owner_child : ownerDocumentOf s nid = ownerDocumentOf s pid := by
  rw [ownerDocumentOf_eq valid,ownerDocumentOf_eq valid,rootOf_child valid.nodup child]

theorem owner_parted {x : ℕ} (inside : x ∈ s.tree.nodes) :
    ownerDocumentOf { s with tree := s.tree.detach nid } x =
      if x ∈ subtree s.tree nid then recorded s nid else ownerDocumentOf s x := by
  have node := not_document valid child
  rw [ownerDocumentOf_eq (valid.parted child),ownerDocumentOf_eq valid,
    rootOf_detach valid.nodup (child_inside child) inside]
  split
  · exact if_neg node
  · rfl

theorem wrapped_parted : Valid (wrapNode { s with tree := s.tree.detach nid } pid) := by
  apply (valid.parted child).wrapped
  exact (Forest.detach_perm (child_inside child)).mem_iff.mpr (parent_inside valid.nodup child)

theorem owner_wrapped :
    ownerDocumentOf (wrapNode { s with tree := s.tree.detach nid } pid) pid = ownerDocumentOf s nid := by
  have parted := valid.parted child
  have inside := parent_inside valid.nodup child
  rw [ownerDocumentOf_eq (wrapped_parted valid child),docOf_wrapped parted]
  · change docOf { s with tree := s.tree.detach nid } (rootOf (s.tree.detach nid) pid) = _
    rw [← ownerDocumentOf_eq parted,owner_parted valid child inside,
      if_neg (parent_outside valid.nodup child),owner_child valid child]
  · exact (Forest.detach_perm (child_inside child)).mem_iff.mpr inside

theorem removeCore_valid : Valid (removeCore s pid nid) := by
  have wrapped := wrapped_parted valid child
  rw [removeCore]
  split
  next => exact valid.parted child
  next held =>
    rw [not_or,not_not] at held
    apply wrapped.recorded
    · exact mem_wrapNode held.2
    · exact ownerDocumentOf_document wrapped pid

theorem subtree_removeCore : subtree (removeCore s pid nid).tree nid = subtree s.tree nid := by
  have inside := child_inside child
  rw [removeCore_tree,subtree_detach valid.nodup inside inside,
    if_neg (Forest.not_below_self valid.nodup nid)]

theorem owner_removeCore {x : ℕ} (inside : x ∈ s.tree.nodes) : ownerDocumentOf (removeCore s pid nid) x =
      if x ∈ subtree s.tree nid then
        (if nid ∈ s.cache then ownerDocumentOf s nid else s.document)
      else ownerDocumentOf s x := by
  have final := ownerDocumentOf_eq (removeCore_valid valid child) x
  have parted := owner_parted valid child inside
  rw [removeCore] at final ⊢
  by_cases none : s.detached = []
  · have main : ∀ y, ownerDocumentOf s y = s.document := fun y => if_pos none
    rw [if_pos (.inl none),main,main]
    simp only [ite_self]
    exact if_pos none
  by_cases held : nid ∈ s.cache
  · have wrapped := wrapped_parted valid child
    have node := not_document valid child
    have detached := (Forest.detach_perm (child_inside child)).mem_iff.mpr (parent_inside valid.nodup child)
    have document := ownerDocumentOf_document wrapped pid
    rw [if_neg (by simp [none,held])] at final ⊢
    rw [final,docOf_record wrapped (mem_wrapNode held) document node,
      docOf_wrapped (valid.parted child) detached,owner_wrapped valid child,if_pos held]
    change (if rootOf (s.tree.detach nid) x = nid then _ else docOf s (rootOf (s.tree.detach nid) x)) = _
    rw [rootOf_detach valid.nodup (child_inside child) inside]
    by_cases below : x ∈ subtree s.tree nid
    · rw [if_pos below,if_pos rfl,if_pos below]
    · have other : rootOf s.tree x ≠ nid :=
        fun same => below (same ▸ mem_subtree_rootOf valid.nodup inside)
      rw [if_neg below,if_neg other,if_neg below,ownerDocumentOf_eq valid]
  · rw [if_pos (.inr held),parted,if_neg held,recorded,if_neg held]

end removal

section inserted

variable {pid nid : ℕ} {fragment : Bool} {ref : Option ℕ} {u : NodeTree}
  (node : ¬IsDocument s nid) (done : insertBefore s.tree pid nid fragment ref = some u)
include node done

theorem document_stays {d : ℕ} (document : IsDocument s d) : d ∈ (staying s.tree fragment nid).nodes := by
  have inside := (valid.tops d document).1
  apply (moved_or_staying (insertBefore_some done).1 inside).resolve_left
  intro new
  rcases List.mem_cons.mp (moved_subset new) with rfl | below
  · exact node document
  · exact document_outside valid document nid below

theorem Valid.inserted : Valid { s with tree := u } := by
  apply valid.retree (insertBefore_perm done)
  intro d document
  rw [ancestors_stayed valid.nodup done (document_stays valid node done document)]
  exact (valid.tops d document).2.1

theorem owner_inserted {x : ℕ} (inside : x ∈ s.tree.nodes) : ownerDocumentOf { s with tree := u } x =
      if x ∈ (moved s.tree fragment nid).nodes then ownerDocumentOf s pid
      else ownerDocumentOf s x := by
  rw [ownerDocumentOf_eq (valid.inserted node done),ownerDocumentOf_eq valid,ownerDocumentOf_eq valid]
  change docOf s (rootOf u x) = _
  split
  next new => rw [rootOf_moved valid.nodup done new]
  next old =>
    have stays := (moved_or_staying (insertBefore_some done).1 inside).resolve_left old
    rw [rootOf_stayed valid.nodup done stays]

end inserted

section freed

variable {pid : ℕ} (inside : pid ∈ s.tree.nodes)
include inside

theorem Valid.freed : Valid { s with tree := freeChildren s.tree pid } := by
  apply valid.retree (freeChildren_perm inside)
  intro d document
  obtain ⟨within,top,-⟩ := valid.tops d document
  rw [ancestors_freed valid.nodup inside within,if_neg (document_outside valid document pid)]
  exact top

theorem owner_freed {x : ℕ} (there : x ∈ s.tree.nodes) :
    ownerDocumentOf { s with tree := freeChildren s.tree pid } x =
      if x ∈ (s.tree.children pid).nodes then recorded s (rootOf (s.tree.children pid) x)
      else ownerDocumentOf s x := by
  rw [ownerDocumentOf_eq (valid.freed inside),ownerDocumentOf_eq valid]
  change docOf s (rootOf (freeChildren s.tree pid) x) = _
  rw [rootOf_freed valid.nodup inside there]
  split
  next below =>
    apply if_neg
    intro document
    exact document_outside valid document pid (rootOf_inside below)
  next => rfl

end freed

theorem owner_recorded {nid doc : ℕ} (held : nid ∈ s.cache) (document : IsDocument s doc)
    (node : ¬IsDocument s nid) (top : s.tree.ancestors nid = []) {x : ℕ} (there : x ∈ s.tree.nodes) :
    ownerDocumentOf (record s nid doc) x =
      if x ∈ subtree s.tree nid then doc else ownerDocumentOf s x := by
  have inside := valid.cached nid held
  rw [ownerDocumentOf_eq (valid.recorded held document),docOf_record valid held document node,
    ownerDocumentOf_eq valid]
  change (if rootOf s.tree x = nid then doc else docOf s (rootOf s.tree x)) = _
  by_cases below : x ∈ subtree s.tree nid
  · have root : rootOf s.tree x = nid := by
      rw [rootOf_subtree valid.nodup inside below,rootOf,top]
      rfl
    rw [if_pos root,if_pos below]
  · have other : rootOf s.tree x ≠ nid :=
      fun same => below (same ▸ mem_subtree_rootOf valid.nodup there)
    rw [if_neg other,if_neg below]

theorem owner_added {id : ℕ} (fresh : id ∉ s.tree.nodes) {next : State} (valid' : Valid next)
    (grown : next.tree = .cons id .nil s.tree) (same : ∀ r, r ≠ id → docOf next r = docOf s r)
    {x : ℕ} (there : x ∈ s.tree.nodes) : ownerDocumentOf next x = ownerDocumentOf s x := by
  rw [ownerDocumentOf_eq valid',ownerDocumentOf_eq valid,grown,rootOf_added fresh there]
  apply same
  intro new
  exact fresh (new ▸ rootOf_inside there)

end valid

def settled (s : State) (action : Action) (x : ℕ) : ℕ :=
  match action with
  | .remove nid =>
    if x ∈ subtree s.tree nid then (if nid ∈ s.cache then ownerDocumentOf s nid else s.document)
    else ownerDocumentOf s x
  | .replaceChild _ _ _ cid =>
    if x ∈ subtree s.tree cid then recorded s cid else ownerDocumentOf s x
  | .replaceAll pid _ =>
    if x ∈ (s.tree.children pid).nodes then recorded s (rootOf (s.tree.children pid) x)
    else ownerDocumentOf s x
  | .extract c _ => if x ∈ subtree s.tree c then s.document else ownerDocumentOf s x
  | _ => ownerDocumentOf s x

structure Settles (s : State) (action : Action) (next : State) : Prop where
  valid : Valid next
  owner : ∀ x ∈ s.tree.nodes, ownerDocumentOf next x =
    if x ∈ carried s action then destination s action else settled s action x

section steps

variable {next : State} (valid : Valid s)
include valid

theorem wrap_settles {id : ℕ} (taken : step s (.wrap id) = some next) : Settles s (.wrap id) next := by
  rw [step] at taken
  split at taken
  next inside =>
    cases taken
    refine ⟨valid.wrapped inside,?_⟩
    intro x there
    rw [ownerDocumentOf_eq (valid.wrapped inside),docOf_wrapped valid inside]
    exact (ownerDocumentOf_eq valid x).symm
  next => cases taken

theorem parse_settles {id : ℕ} (taken : step s (.parse id) = some next) : Settles s (.parse id) next := by
  rw [step] at taken
  split at taken
  next => cases taken
  next fresh =>
    cases taken
    refine ⟨valid.added fresh,?_⟩
    intro x there
    exact owner_added valid fresh (valid.added fresh) rfl (fun _ _ => rfl) there

theorem createNode_settles {doc id : ℕ} (taken : step s (.createNode doc id) = some next) :
    Settles s (.createNode doc id) next := by
  rw [step] at taken
  split at taken
  next => cases taken
  next able =>
    rw [not_or,not_not] at able
    obtain ⟨fresh,document⟩ := able
    cases taken
    have held : Valid { s with tree := .cons id .nil s.tree, cache := id :: s.cache } :=
      (valid.added fresh).held List.mem_cons_self
    have same : ∀ r, docOf { s with tree := .cons id .nil s.tree, cache := id :: s.cache } r = docOf s r := by
      intro r
      rw [docOf_eq held,docOf_eq valid]
      rfl
    rw [ownDoc]
    by_cases main : doc = s.document
    · rw [if_pos main]
      exact ⟨held,fun x there => owner_added valid fresh held rfl (fun r _ => same r) there⟩
    · have carries : { s with tree := .cons id .nil s.tree, cache := id :: s.cache
                              nodeDocs := Function.update s.nodeDocs id (some doc) } =
          record { s with tree := .cons id .nil s.tree, cache := id :: s.cache } id doc := by
        rw [record,if_neg main]
      have node : ¬IsDocument s id := fun same => fresh (valid.tops id same).1
      have recorded : Valid (record _ id doc) := held.recorded List.mem_cons_self document
      rw [if_neg main,carries]
      refine ⟨recorded,fun x there => owner_added valid fresh recorded rfl ?_ there⟩
      intro r other
      rw [docOf_record held List.mem_cons_self document node,if_neg other]
      exact same r

theorem createDocument_settles {id : ℕ} (taken : step s (.createDocument id) = some next) :
    Settles s (.createDocument id) next := by
  rw [step] at taken
  split at taken
  next => cases taken
  next fresh =>
    cases taken
    have grown : Valid { s with
        tree := .cons id .nil s.tree, detached := id :: s.detached, cache := id :: s.cache } := by
      have held : Valid { s with tree := .cons id .nil s.tree, cache := id :: s.cache } :=
        (valid.added fresh).held List.mem_cons_self
      constructor
      · exact held.nodup
      · rintro d (main | new)
        · exact held.tops d (.inl main)
        rcases List.mem_cons.mp new with rfl | old
        · exact ⟨List.mem_cons_self,Forest.ancestors_self ..,List.mem_cons_self⟩
        · exact held.tops d (.inr old)
      · rw [List.mem_cons,not_or]
        refine ⟨?_,valid.main⟩
        intro same
        exact fresh (same ▸ (valid.tops s.document (.inl rfl)).1)
      · exact held.cached
      · intro r d carried
        exact ⟨(held.owned r d carried).1,List.mem_cons_of_mem _ (held.owned r d carried).2⟩
    refine ⟨grown,fun x there => owner_added valid fresh grown rfl ?_ there⟩
    intro r other
    rw [docOf_eq grown,docOf_eq valid]
    by_cases document : IsDocument s r
    · rw [if_pos document]
      exact if_pos (document.imp_right (List.mem_cons_of_mem _))
    · rw [if_neg document]
      apply if_neg
      rintro (main | new)
      · exact document (.inl main)
      · exact document (.inr ((List.mem_cons.mp new).resolve_left other))

theorem insert_settles {pid nid : ℕ} {fragment : Bool} {ref : Option ℕ}
    (taken : step s (.insert pid nid fragment ref) = some next) :
    Settles s (.insert pid nid fragment ref) next := by
  rw [step] at taken
  split at taken
  next => cases taken
  next node =>
    obtain ⟨u,done,rfl⟩ := Option.map_eq_some_iff.mp taken
    exact ⟨valid.inserted node done,fun x there => owner_inserted valid node done there⟩

theorem remove_settles {nid : ℕ} (taken : step s (.remove nid) = some next) : Settles s (.remove nid) next := by
  obtain ⟨pid,child,rfl⟩ := Option.map_eq_some_iff.mp taken
  exact ⟨removeCore_valid valid child,fun x there => owner_removeCore valid child there⟩

theorem replaceChild_settles {pid nid : ℕ} {fragment : Bool} {cid : ℕ}
    (taken : step s (.replaceChild pid nid fragment cid) = some next) :
    Settles s (.replaceChild pid nid fragment cid) next := by
  rw [step] at taken
  split at taken
  next => cases taken
  next able =>
    rw [not_or,not_or,not_not] at able
    obtain ⟨node,other,child⟩ := able
    obtain ⟨u,done,rfl⟩ := Option.map_eq_some_iff.mp taken
    have inserted := valid.inserted node done
    have child' := parent_replaced valid.nodup done child other
    refine ⟨inserted.parted child',?_⟩
    intro x there
    have within := (insertBefore_perm done).mem_iff.mpr there
    have parted := owner_parted inserted child' within
    have split := mem_subtree_replaced valid.nodup done child other there
    rw [parted,owner_inserted valid node done there]
    by_cases new : x ∈ (moved s.tree fragment nid).nodes
    · simp [carried,destination,split,new]
    · simp only [carried,settled,split,new,not_false_iff,and_true,if_false]
      rfl

theorem replaceAll_settles {pid : ℕ} {node : Option (ℕ × Bool)}
    (taken : step s (.replaceAll pid node) = some next) : Settles s (.replaceAll pid node) next := by
  rw [step] at taken
  split at taken
  next => cases taken
  next inside =>
    rw [not_not] at inside
    cases node with
    | none =>
      cases taken
      exact ⟨valid.freed inside,fun x there => owner_freed valid inside there⟩
    | some node =>
      obtain ⟨nid,fragment⟩ := node
      change (if IsDocument s nid then none else _) = _ at taken
      split at taken
      next => cases taken
      next node =>
        obtain ⟨u,done,rfl⟩ := Option.map_eq_some_iff.mp taken
        have freed := valid.freed inside
        have kept : ownerDocumentOf { s with tree := freeChildren s.tree pid } pid =
            ownerDocumentOf s pid := by
          rw [owner_freed valid inside inside,if_neg (Forest.not_below_self valid.nodup pid)]
        refine ⟨freed.inserted node done,?_⟩
        intro x there
        have within := (freeChildren_perm inside).mem_iff.mpr there
        rw [owner_inserted freed node done within,kept,owner_freed valid inside there]
        rfl

theorem adopt_settles {doc nid : ℕ} (taken : step s (.adopt doc nid) = some next) :
    Settles s (.adopt doc nid) next := by
  rw [step] at taken
  split at taken
  next => cases taken
  next able =>
    rw [not_or,not_or,not_not,not_not] at able
    obtain ⟨document,node,held⟩ := able
    have inside := valid.cached nid held
    cases child : parent s.tree nid with
    | none =>
      rw [child] at taken
      cases taken
      have top : s.tree.ancestors nid = [] := List.head?_eq_none_iff.mp child
      refine ⟨valid.recorded held document,?_⟩
      exact fun x there => owner_recorded valid held document node top there
    | some pid =>
      rw [child] at taken
      cases taken
      have there : nid ∈ (removeCore s pid nid).tree.nodes := by
        rw [removeCore_tree]
        exact (Forest.detach_perm inside).mem_iff.mpr inside
      have removed := removeCore_valid valid child
      have held' := removeCore_cache pid nid held
      have document' := (removeCore_document pid nid doc).mpr document
      have node' := mt (removeCore_document pid nid nid).mp node
      have top : (removeCore s pid nid).tree.ancestors nid = [] := by
        rw [removeCore_tree]
        exact Forest.ancestors_self ..
      refine ⟨removed.recorded held' document',?_⟩
      intro x there
      rw [owner_recorded removed held' document' node' top (removeCore_inside _ _ child there),
        subtree_removeCore valid child,owner_removeCore valid child there]
      by_cases below : x ∈ subtree s.tree nid
      · simp [carried,destination,below]
      · simp [carried,settled,below]

theorem extract_settles {c frag : ℕ} (taken : step s (.extract c frag) = some next) :
    Settles s (.extract c frag) next := by
  rw [step] at taken
  split at taken
  next => cases taken
  next able =>
    rw [not_or,not_or,not_not,not_not] at able
    obtain ⟨there,bare,top⟩ := able
    obtain ⟨pid,child,taken⟩ := Option.bind_eq_some_iff.mp taken
    obtain ⟨u,done,rfl⟩ := Option.map_eq_some_iff.mp taken
    have removed := removeCore_valid valid child
    have node := mt (removeCore_document pid c c).mp (not_document valid child)
    refine ⟨removed.inserted node done,?_⟩
    intro x inside
    have main : ownerDocumentOf (removeCore s pid c) frag = s.document := by
      have chain : s.tree.ancestors frag = [] := List.head?_eq_none_iff.mp top
      have outside : frag ∉ subtree s.tree c := by
        intro under
        rcases List.mem_cons.mp under with rfl | below
        · rw [top] at child
          cases child
        · rw [Forest.mem_children_iff valid.nodup there,chain] at below
          cases below
      have root : ¬IsDocument s frag := fun document => bare (valid.tops frag document).2.2
      rw [owner_removeCore valid child there,if_neg outside,ownerDocumentOf_eq valid,rootOf,
        chain]
      exact (if_neg root).trans (if_neg bare)
    rw [owner_inserted removed node done (removeCore_inside _ _ child inside),main,
      nodes_moved_false,subtree_removeCore valid child,owner_removeCore valid child inside]
    by_cases below : x ∈ subtree s.tree c
    · simp [carried,settled,below]
    · simp [carried,settled,below]

theorem step_settles (action : Action) (taken : step s action = some next) : Settles s action next := by
  cases action with
  | wrap => exact wrap_settles valid taken
  | createDocument => exact createDocument_settles valid taken
  | createNode => exact createNode_settles valid taken
  | parse => exact parse_settles valid taken
  | insert => exact insert_settles valid taken
  | remove => exact remove_settles valid taken
  | replaceChild => exact replaceChild_settles valid taken
  | replaceAll => exact replaceAll_settles valid taken
  | adopt => exact adopt_settles valid taken
  | extract => exact extract_settles valid taken

theorem settled_iff (action : Action) (taken : step s action = some next) {x : ℕ} :
    settled s action x = ownerDocumentOf s x ↔ Keeps s x action := by
  have owner : ∀ n, x ∈ subtree s.tree n → n ∈ s.tree.nodes →
      ownerDocumentOf s x = ownerDocumentOf s n := by
    intro n below inside
    rw [ownerDocumentOf_eq valid,ownerDocumentOf_eq valid,rootOf_subtree valid.nodup inside below]
  cases action with
  | remove nid =>
    by_cases below : x ∈ subtree s.tree nid
    · obtain ⟨pid,child,-⟩ := Option.map_eq_some_iff.mp taken
      simp only [settled,Keeps,below,if_true,owner nid below (child_inside child),forall_const]
      by_cases wrapped : nid ∈ s.cache
      · simp only [wrapped,if_true,true_or]
      · simp only [wrapped,if_false,false_or]
        exact eq_comm
    · simp only [settled,Keeps,below,if_false,false_imp_iff]
  | replaceChild pid nid fragment cid =>
    by_cases below : x ∈ subtree s.tree cid
    · have inside : cid ∈ s.tree.nodes := by
        rw [step] at taken
        split at taken
        next => cases taken
        next able =>
          rw [not_or,not_or,not_not] at able
          exact child_inside able.2.2
      simp only [settled,Keeps,below,if_true,owner cid below inside,forall_const]
    · simp only [settled,Keeps,below,if_false,false_imp_iff]
  | replaceAll pid node =>
    by_cases below : x ∈ (s.tree.children pid).nodes
    · have inside : pid ∈ s.tree.nodes := by
        rw [step] at taken
        split at taken
        next => cases taken
        next inside => exact not_not.mp inside
      simp only [settled,Keeps,below,if_true,owner pid (List.mem_cons_of_mem _ below) inside,forall_const]
    · simp only [settled,Keeps,below,if_false,false_imp_iff]
  | extract c frag =>
    by_cases below : x ∈ subtree s.tree c
    · have inside : c ∈ s.tree.nodes := by
        rw [step] at taken
        split at taken
        next => cases taken
        next =>
          obtain ⟨pid,child,-⟩ := Option.bind_eq_some_iff.mp taken
          exact child_inside child
      simp only [settled,Keeps,below,if_true,owner c below inside,forall_const]
      exact eq_comm
    · simp only [settled,Keeps,below,if_false,false_imp_iff]
  | wrap => exact iff_true_intro rfl
  | createDocument => exact iff_true_intro rfl
  | createNode => exact iff_true_intro rfl
  | parse => exact iff_true_intro rfl
  | insert => exact iff_true_intro rfl
  | adopt => exact iff_true_intro rfl

theorem kept_iff (action : Action) (taken : step s action = some next) :
    Kept s action next ↔ Allowed s action := by
  have settles := step_settles valid action taken
  constructor
  · intro kept _ x held out
    have same := kept x held
    rw [settles.owner x (valid.cached x held),if_neg out,if_neg out] at same
    exact (settled_iff valid action taken).mp same
  · intro allowed x held
    rw [settles.owner x (valid.cached x held)]
    by_cases new : x ∈ carried s action
    · rw [if_pos new,if_pos new]
    · rw [if_neg new,if_neg new]
      exact (settled_iff valid action taken).mpr (allowed (Option.isSome_of_mem taken) x held new)

end steps

end laws

/-- In a run of a page every node keeps its document exactly where every removal leaves it to a root
that carries it. -/
theorem ownerDocument_kept (document : ℕ) (actions : List Action) :
    Runs.Each step Kept (start document) actions ↔ Runs.Guarded step Allowed (start document) actions := by
  refine Runs.each_iff_guarded_keeping step ?_ ?_ actions (start document) (start_valid document)
  · intro s action next valid taken
    exact ⟨(step_settles valid action taken).valid,kept_iff valid action taken⟩
  · intro s action refused taken
    rw [refused] at taken
    cases taken

/-- A child of an element of another document that is freed by `textContent`. -/
def freed : List Action :=
  [.createDocument 1,.createNode 1 2,.insert 1 2 false none,.parse 3,.insert 2 3 false none,.wrap 3,
    .replaceAll 2 none]

theorem textContent_forgets :
    ¬∀ (document : ℕ) (actions : List Action), Runs.Each step Kept (start document) actions := by
  intro all
  have each : Runs.Each step Kept (start 0) (freed.take 6 ++ [.replaceAll 2 none]) := all 0 freed
  have last := Runs.each_at step each rfl rfl
  have same := last 3 (by decide)
  revert same
  decide

end Sharko.Script.Dom.NodeDocuments
