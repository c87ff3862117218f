import Mathlib
import Sharko.Library.Runs
import Sharko.Script.Dom.Nodes

/-! `NodeIterator`: its walk in tree order, and what removals do to its place. -/

namespace Sharko.Script.Dom.NodeIterators

open Sharko.Library NodeTree

def climb (t : NodeTree) (root : ℕ) : List ℕ → Option ℕ
  | [] => none
  | n :: up =>
    if n = root then none
    else
      match nextSibling t n with
      | some s => some s
      | none => climb t root up

def followingInRoot (t : NodeTree) (id root : ℕ) : Option ℕ :=
  match firstChild t id with
  | some c => some c
  | none => climb t root (id :: t.ancestors id)

def deepest (t : NodeTree) : ℕ → ℕ → ℕ
  | 0,s => s
  | fuel + 1,s =>
    match lastChild t s with
    | some c => deepest t fuel c
    | none => s

def precedingInRoot (t : NodeTree) (id root : ℕ) : Option ℕ :=
  if id = root then none
  else
    match prevSibling t id with
    | some s => some (deepest t t.nodes.length s)
    | none => parent t id

structure State where
  tree : NodeTree
  root : ℕ
  ref : ℕ
  before : Bool

section traverse

variable (t : NodeTree) (root : ℕ) (runFilter : ℕ → ℕ)

def traverse (next : Bool) : ℕ → ℕ → Bool → Option (Option (ℕ × Bool))
  | 0,_,_ => none
  | fuel + 1,node,before =>
    let moved :=
      if next then
        if !before then (followingInRoot t node root).map fun n => (n,before) else some (node,false)
      else if before then (precedingInRoot t node root).map fun n => (n,before)
      else some (node,true)
    match moved with
    | none => some none
    | some (node,before) =>
      if runFilter node == 1 then some (some (node,before)) else traverse next fuel node before

end traverse

inductive Action where
  | nextNode
  | previousNode
  | remove (n : ℕ)
  deriving DecidableEq

section step

variable (runFilter : ℕ → ℕ)

def found (s : State) (next : Bool) : Option (Option (ℕ × Bool)) :=
  traverse s.tree s.root runFilter next (s.tree.nodes.length + 1) s.ref s.before

def settle (s : State) : Option (ℕ × Bool) → State
  | some (node,before) => { s with ref := node, before := before }
  | none => s

def step (s : State) : Action → Option State
  | .nextNode => (found runFilter s true).map (settle s)
  | .previousNode => (found runFilter s false).map (settle s)
  | .remove n => (removeChild s.tree n).map fun t => { s with tree := t }

def visits : State → List Action → List ℕ
  | _,[] => []
  | s,action :: later =>
    match step runFilter s action with
    | none => []
    | some next => (if action = .nextNode then (((found runFilter s true).getD none).map Prod.fst).toList
        else []) ++ visits next later

end step

/-- A page with the node an iterator is made for. -/
structure Page where
  tree : NodeTree
  nodup : tree.nodes.Nodup
  root : ℕ
  inside : root ∈ tree.nodes

def start (page : Page) : State := ⟨page.tree,page.root,page.root,true⟩

section laws

def Inside (s : State) : Prop := s.ref ∈ subtree s.tree s.root

def ahead (s : State) : List ℕ :=
  let from_ := (subtree s.tree s.root).dropWhile fun x => x ≠ s.ref
  if s.before then from_ else from_.tail

def pending (runFilter : ℕ → ℕ) (s : State) : List ℕ := (ahead s).filter fun x => runFilter x == 1

/-- From one state to a later one, what was pending has been visited in order, is still pending
or has left the tree; and once `nextNode` returns null nothing is pending. -/
structure Swept (runFilter : ℕ → ℕ) (s : State) (later : List Action) (t : State) : Prop where
  ordered : (visits runFilter s later ++ pending runFilter t).Sublist (pending runFilter s)
  complete : ∀ x ∈ pending runFilter s,
    x ∈ visits runFilter s later ∨ x ∈ pending runFilter t ∨ x ∉ subtree t.tree t.root
  null : found runFilter t true = some none ↔ pending runFilter t = []

def Spares (s : State) : Action → Prop
  | .remove n => (removeChild s.tree n).isSome → n ∈ (s.tree.children s.root).nodes →
      s.ref ∉ subtree s.tree n
  | _ => True

end laws

section order

variable {t : NodeTree} {root id : ℕ}

theorem dropWhile_split {l front rest : List ℕ} {x : ℕ} (nodup : l.Nodup)
    (split : l = front ++ x :: rest) : (l.dropWhile fun y => y ≠ x) = x :: rest := by
  have away : ∀ y ∈ front, y ≠ x := by
    rintro y there rfl
    rw [split] at nodup
    exact (List.nodup_append.mp nodup).2.2 y there y List.mem_cons_self rfl
  rw [split,List.dropWhile_append_of_pos]
  · simp
  · intro y there
    simpa using away y there

theorem takeWhile_split {l front rest : List ℕ} {x : ℕ} (nodup : l.Nodup)
    (split : l = front ++ x :: rest) : (l.takeWhile fun y => y ≠ x) = front := by
  have away : ∀ y ∈ front, y ≠ x := by
    rintro y there rfl
    rw [split] at nodup
    exact (List.nodup_append.mp nodup).2.2 y there y List.mem_cons_self rfl
  rw [split,List.takeWhile_append_of_pos]
  · simp
  · intro y there
    simpa using away y there

theorem climb_append {up upper : List ℕ} (away : ∀ y ∈ up, y ≠ root) :
    climb t root (up ++ root :: upper) = up.findSome? fun y => nextSibling t y := by
  induction up with
  | nil => simp [climb]
  | cons y up ih =>
    rw [List.cons_append,climb,if_neg (away y List.mem_cons_self),List.findSome?_cons,
      ih fun z there => away z (List.mem_cons_of_mem y there)]
    cases nextSibling t y <;> rfl

theorem followingInRoot_eq (nodup : t.nodes.Nodup) (inside : root ∈ t.nodes) (there : id ∈ subtree t root) :
    followingInRoot t id root = ((subtree t root).dropWhile fun y => y ≠ id).tail.head? := by
  unfold followingInRoot
  rcases List.mem_cons.mp there with rfl | below
  · rw [dropWhile_split (subtree_nodup nodup id) (List.nil_append _).symm,List.tail_cons,firstChild,
      Forest.first_eq]
    cases (t.children id).nodes.head? with
    | some c => rfl
    | none => simp [climb]
  · have nodupBelow := nodup.sublist (Forest.children_sublist root t)
    have away : ∀ y ∈ id :: (t.children root).ancestors id, y ≠ root := by
      rintro y up rfl
      rcases List.mem_cons.mp up with rfl | above
      · exact Forest.not_below_self nodup y below
      · exact Forest.not_below_self nodup y (Forest.ancestors_subset above)
    have siblings : ((id :: (t.children root).ancestors id).findSome? fun y => nextSibling t y) =
        (id :: (t.children root).ancestors id).findSome? fun y => (t.children root).nextOf y := by
      apply Forest.findSome_congr
      intro y up
      apply nextSibling_below nodup inside
      rcases List.mem_cons.mp up with rfl | above
      · exact below
      · exact Forest.ancestors_subset above
    have split : subtree t root =
        (root :: (t.children root).front id) ++ id :: (t.children root).rest id := by
      rw [subtree,Forest.front_rest below]
      rfl
    rw [dropWhile_split (subtree_nodup nodup root) split,List.tail_cons,
      ← Forest.head_rest nodupBelow below,firstChild_below nodup inside below,
      ancestors_subtree nodup inside below,← List.cons_append,climb_append away,siblings]
    cases ((t.children root).children id).first <;> rfl

theorem deepest_eq (nodup : t.nodes.Nodup) (fuel s : ℕ) (inside : s ∈ t.nodes)
    (enough : (t.children s).nodes.length ≤ fuel) : deepest t fuel s = t.lastIn s := by
  induction fuel generalizing s with
  | zero =>
    have none_ : t.children s = .nil := by
      cases below : t.children s with
      | nil => rfl
      | cons r c n => simp [below] at enough
    rw [deepest,Forest.lastIn,none_]
    rfl
  | succ fuel ih =>
    rw [deepest,lastChild]
    cases found : (t.children s).last with
    | none => exact (Forest.lastIn_of_leaf found).symm
    | some c =>
      have below := Forest.last_mem found
      have inner := Forest.children_children nodup inside below
      have nodupBelow := nodup.sublist (Forest.children_sublist s t)
      have contained : subtree t c ⊆ (t.children s).nodes := by
        intro x there
        rcases List.mem_cons.mp there with rfl | under
        · exact below
        · rw [inner] at under
          exact (Forest.children_sublist c _).subset under
      have shorter := ((subtree_nodup nodup c).subperm contained).length_le
      rw [subtree,List.length_cons] at shorter
      rw [Forest.lastIn_of_last nodup inside found]
      exact ih c ((Forest.children_sublist s t).subset below) (by omega)

theorem precedingInRoot_eq (nodup : t.nodes.Nodup) (inside : root ∈ t.nodes) (there : id ∈ subtree t root) :
    precedingInRoot t id root = ((subtree t root).takeWhile fun y => y ≠ id).getLast? := by
  unfold precedingInRoot
  rcases List.mem_cons.mp there with rfl | below
  · rw [if_pos rfl,takeWhile_split (subtree_nodup nodup id) (List.nil_append _).symm]
    rfl
  · have nodupBelow := nodup.sublist (Forest.children_sublist root t)
    have other : id ≠ root := fun same => Forest.not_below_self nodup root (same ▸ below)
    have split : subtree t root =
        (root :: (t.children root).front id) ++ id :: (t.children root).rest id := by
      rw [subtree,Forest.front_rest below]
      rfl
    rw [if_neg other,takeWhile_split (subtree_nodup nodup root) split,List.getLast?_cons,
      prevSibling_below nodup inside below,parent_below nodup inside below,Forest.prevOf]
    rcases Forest.last_front nodupBelow below none with
      ⟨empty,alone,top⟩ | ⟨s,inner,found,final⟩ | ⟨q,alone,up,final⟩
    · rw [alone,empty,top]
      rfl
    · have there := (Forest.children_sublist root t).subset inner
      have same : (t.children root).lastIn s = t.lastIn s := by
        rw [Forest.lastIn,Forest.lastIn,Forest.children_children nodup inside inner]
      have enough : (t.children s).nodes.length ≤ t.nodes.length :=
        (Forest.children_sublist s t).length_le
      rw [found,final,same]
      exact congrArg some (deepest_eq nodup _ s there enough)
    · rw [alone,up,final]
      rfl

end order

section walks

variable {t : NodeTree} {root : ℕ} (runFilter : ℕ → ℕ)

theorem ahead_split (nodup : t.nodes.Nodup) {node : ℕ} {front rest : List ℕ} (before : Bool)
    (split : subtree t root = front ++ node :: rest) :
    ahead ⟨t,root,node,before⟩ = if before then node :: rest else rest := by
  rw [ahead,dropWhile_split (subtree_nodup nodup root) split]
  rfl

theorem traverse_next (nodup : t.nodes.Nodup) (inside : root ∈ t.nodes) (fuel node : ℕ)
    (before : Bool) (there : node ∈ subtree t root) (enough : (ahead ⟨t,root,node,before⟩).length < fuel) :
    traverse t root runFilter true fuel node before =
      some (((pending runFilter ⟨t,root,node,before⟩).head?).map fun n => (n,false)) := by
  induction fuel generalizing node before with
  | zero => exact absurd enough (Nat.not_lt_zero _)
  | succ fuel ih =>
    obtain ⟨front,rest,split⟩ := List.append_of_mem there
    rw [ahead_split nodup before split] at enough
    rw [pending,ahead_split nodup before split,traverse]
    cases before with
    | true =>
      have later := ih node false there (by
        rw [ahead_split nodup false split]
        simpa using enough)
      rw [pending,ahead_split nodup false split] at later
      cases accepted : runFilter node == 1 with
      | true => simp [accepted]
      | false => simpa [accepted] using later
    | false =>
      have moved := followingInRoot_eq nodup inside there
      rw [dropWhile_split (subtree_nodup nodup root) split,List.tail_cons] at moved
      cases rest with
      | nil => simp [moved]
      | cons n rest =>
        have split' : subtree t root = (front ++ [node]) ++ n :: rest := by simp [split]
        have there' : n ∈ subtree t root := by simp [split]
        have later := ih n false there' (by
          rw [ahead_split nodup false split']
          simpa using enough)
        rw [pending,ahead_split nodup false split'] at later
        cases accepted : runFilter n == 1 with
        | true => simp [moved,accepted]
        | false => simpa [moved,accepted] using later

def passed (s : State) : List ℕ :=
  let front := ((subtree s.tree s.root).takeWhile fun x => x ≠ s.ref).reverse
  if s.before then front else s.ref :: front

theorem passed_split (nodup : t.nodes.Nodup) {node : ℕ} {front rest : List ℕ} (before : Bool)
    (split : subtree t root = front ++ node :: rest) :
    passed ⟨t,root,node,before⟩ = if before then front.reverse else node :: front.reverse := by
  rw [passed,takeWhile_split (subtree_nodup nodup root) split]

theorem traverse_previous (nodup : t.nodes.Nodup) (inside : root ∈ t.nodes) (fuel node : ℕ)
    (before : Bool) (there : node ∈ subtree t root) (enough : (passed ⟨t,root,node,before⟩).length < fuel) :
    traverse t root runFilter false fuel node before =
      some ((((passed ⟨t,root,node,before⟩).filter fun x => runFilter x == 1).head?).map
        fun n => (n,true)) := by
  induction fuel generalizing node before with
  | zero => exact absurd enough (Nat.not_lt_zero _)
  | succ fuel ih =>
    obtain ⟨front,rest,split⟩ := List.append_of_mem there
    rw [passed_split nodup before split] at enough ⊢
    rw [traverse]
    cases before with
    | false =>
      have later := ih node true there (by
        rw [passed_split nodup true split]
        simpa using enough)
      rw [passed_split nodup true split] at later
      cases accepted : runFilter node == 1 with
      | true => simp [accepted]
      | false => simpa [accepted] using later
    | true =>
      have moved := precedingInRoot_eq nodup inside there
      rw [takeWhile_split (subtree_nodup nodup root) split] at moved
      rcases front.eq_nil_or_concat with rfl | ⟨front,n,rfl⟩
      · simp [moved]
      · have split' : subtree t root = front ++ n :: (node :: rest) := by simp [split]
        have there' : n ∈ subtree t root := by simp [split]
        have later := ih n true there' (by
          rw [passed_split nodup true split']
          simpa using enough)
        rw [passed_split nodup true split'] at later
        cases accepted : runFilter n == 1 with
        | true => simp [moved,accepted]
        | false => simpa [moved,accepted] using later

end walks

section steps

variable {runFilter : ℕ → ℕ} {s u : State}

structure Valid (s : State) : Prop where
  nodup : s.tree.nodes.Nodup
  inside : s.root ∈ s.tree.nodes

theorem ahead_suffix (s : State) : ahead s <:+ subtree s.tree s.root := by
  unfold ahead
  split
  · exact List.dropWhile_suffix _
  · exact (List.tail_suffix _).trans (List.dropWhile_suffix _)

theorem found_next (valid : Valid s) (here : Inside s) :
    found runFilter s true = some ((pending runFilter s).head?.map fun n => (n,false)) := by
  apply traverse_next runFilter valid.nodup valid.inside _ _ _ here
  have short := (ahead_suffix s).length_le
  have bound := subtree_length valid.nodup valid.inside
  exact Nat.lt_succ_of_le (short.trans bound)

theorem found_previous (valid : Valid s) (here : Inside s) : found runFilter s false =
      some (((passed s).filter fun x => runFilter x == 1).head?.map fun n => (n,true)) := by
  apply traverse_previous runFilter valid.nodup valid.inside _ _ _ here
  obtain ⟨front,rest,split⟩ := List.append_of_mem here
  have bound := subtree_length valid.nodup valid.inside
  rw [split,List.length_append,List.length_cons] at bound
  have short : (passed ⟨s.tree,s.root,s.ref,s.before⟩).length ≤ front.length + 1 := by
    rw [passed_split valid.nodup s.before split]
    split <;> simp
  omega

theorem pending_mem {x : ℕ} (there : x ∈ pending runFilter s) : x ∈ subtree s.tree s.root :=
  (ahead_suffix s).subset (List.mem_of_mem_filter there)

theorem passed_mem (here : Inside s) {x : ℕ} (there : x ∈ passed s) : x ∈ subtree s.tree s.root := by
  have front : ∀ y ∈ ((subtree s.tree s.root).takeWhile fun x => x ≠ s.ref).reverse,
      y ∈ subtree s.tree s.root :=
    fun y inner => (List.takeWhile_sublist _).subset (List.mem_reverse.mp inner)
  unfold passed at there
  split at there
  · exact front x there
  · rcases List.mem_cons.mp there with rfl | inner
    · exact here
    · exact front x inner

theorem removed_inside {n : ℕ} {t : NodeTree} (removed : removeChild s.tree n = some t) :
    n ∈ s.tree.nodes ∧ t = s.tree.detach n := by
  obtain ⟨p,above,rfl⟩ := Option.map_eq_some_iff.mp removed
  refine ⟨?_,rfl⟩
  by_contra outside
  rw [parent,Forest.ancestors_of_not_mem outside] at above
  cases above

theorem valid_step {action : Action} (valid : Valid s) (taken : step runFilter s action = some u) :
    Valid u ∧ u.root = s.root := by
  cases action with
  | nextNode =>
    obtain ⟨result,_,rfl⟩ := Option.map_eq_some_iff.mp taken
    rcases result with _ | ⟨node,before⟩ <;> exact ⟨⟨valid.nodup,valid.inside⟩,rfl⟩
  | previousNode =>
    obtain ⟨result,_,rfl⟩ := Option.map_eq_some_iff.mp taken
    rcases result with _ | ⟨node,before⟩ <;> exact ⟨⟨valid.nodup,valid.inside⟩,rfl⟩
  | remove n =>
    obtain ⟨t,removed,rfl⟩ := Option.map_eq_some_iff.mp taken
    obtain ⟨there,rfl⟩ := removed_inside removed
    refine ⟨⟨Forest.detach_nodup valid.nodup there,?_⟩,rfl⟩
    exact (Forest.detach_perm there).mem_iff.mpr valid.inside

theorem inside_step {action : Action} (valid : Valid s) (here : Inside s)
    (taken : step runFilter s action = some u) : Inside u ↔ Spares s action := by
  cases action with
  | nextNode =>
    refine iff_of_true ?_ trivial
    rw [step,found_next valid here] at taken
    obtain rfl := Option.some.inj taken
    cases first : (pending runFilter s).head? with
    | none => exact here
    | some x => exact pending_mem (s := s) (List.mem_of_head? first)
  | previousNode =>
    refine iff_of_true ?_ trivial
    rw [step,found_previous valid here] at taken
    obtain rfl := Option.some.inj taken
    cases first : ((passed s).filter fun x => runFilter x == 1).head? with
    | none => exact here
    | some x => exact passed_mem here (List.mem_of_mem_filter (List.mem_of_head? first))
  | remove n =>
    obtain ⟨t,removed,rfl⟩ := Option.map_eq_some_iff.mp taken
    obtain ⟨there,rfl⟩ := removed_inside removed
    unfold Inside Spares
    rw [subtree_detach valid.nodup there valid.inside]
    split
    next below =>
      rw [List.mem_filter]
      simp only [Bool.not_eq_true',decide_eq_false_iff_not]
      exact ⟨fun both _ _ => both.2,fun spared => ⟨here,spared (by rw [removed]; rfl) below⟩⟩
    next outside => exact iff_of_true here fun _ below => absurd below outside

theorem subtree_step {action : Action} (valid : Valid s) (taken : step runFilter s action = some u) :
    subtree u.tree u.root ⊆ subtree s.tree s.root := by
  cases action with
  | nextNode =>
    obtain ⟨result,_,rfl⟩ := Option.map_eq_some_iff.mp taken
    rcases result with _ | ⟨node,before⟩ <;> exact List.Subset.refl _
  | previousNode =>
    obtain ⟨result,_,rfl⟩ := Option.map_eq_some_iff.mp taken
    rcases result with _ | ⟨node,before⟩ <;> exact List.Subset.refl _
  | remove n =>
    obtain ⟨t,removed,rfl⟩ := Option.map_eq_some_iff.mp taken
    obtain ⟨there,rfl⟩ := removed_inside removed
    rw [subtree_detach valid.nodup there valid.inside]
    split
    · exact List.filter_sublist.subset
    · exact List.Subset.refl _

theorem visits_nil (s : State) : visits runFilter s [] = [] := rfl

theorem visits_cons {action : Action} (taken : step runFilter s action = some u)
    (later : List Action) : visits runFilter s (action :: later) =
      visits runFilter s [action] ++ visits runFilter u later := by
  rw [visits,visits,taken]
  simp [visits]

theorem pending_next (valid : Valid s) (here : Inside s) (taken : step runFilter s .nextNode = some u) :
    visits runFilter s [.nextNode] ++ pending runFilter u = pending runFilter s := by
  have walked : found runFilter s true = _ := found_next valid here
  rw [visits,taken,walked]
  rw [step,walked] at taken
  obtain rfl := Option.some.inj taken
  cases first : pending runFilter s with
  | nil => simp [settle,visits,first]
  | cons x later =>
    obtain ⟨skipped,rest,split,_,_,same⟩ := List.filter_eq_cons_iff.mp first
    obtain ⟨front,whole⟩ := ahead_suffix s
    have split' : subtree s.tree s.root = (front ++ skipped) ++ x :: rest := by
      rw [← whole,split]
      simp
    have placed := ahead_split valid.nodup false split'
    simp only [List.head?_cons,Option.map_some,settle,visits,pending,placed]
    simpa using same

theorem pending_remove {n : ℕ} (valid : Valid s) (here : Inside s) (spares : Spares s (.remove n))
    (taken : step runFilter s (.remove n) = some u) :
    pending runFilter u = (pending runFilter s).filter fun x => decide (x ∈ subtree u.tree u.root) := by
  obtain ⟨t,removed,rfl⟩ := Option.map_eq_some_iff.mp taken
  obtain ⟨there,rfl⟩ := removed_inside removed
  have left := subtree_detach valid.nodup there valid.inside
  by_cases below : n ∈ (s.tree.children s.root).nodes
  · rw [if_pos below] at left
    obtain ⟨front,rest,split⟩ := List.append_of_mem here
    have spared : decide (s.ref ∈ subtree s.tree n) = false := decide_eq_false (spares (by rw [removed]; rfl) below)
    have split' := left
    rw [split,List.filter_append,List.filter_cons_of_pos (by rw [spared]; rfl)] at split'
    have nodupU := Forest.detach_nodup valid.nodup there
    have aheadU := ahead_split nodupU s.before split'
    have aheadS := ahead_split valid.nodup s.before split
    have kept : ahead { s with tree := s.tree.detach n } =
        (ahead s).filter fun x => !decide (x ∈ subtree s.tree n) := by
      refine aheadU.trans ?_
      rw [show ahead s = _ from aheadS]
      split
      · rw [List.filter_cons_of_pos (by rw [spared]; rfl)]
      · rfl
    rw [pending,pending,kept,List.filter_comm]
    apply List.filter_congr
    intro x pendingX
    have whole := (ahead_suffix s).subset (List.mem_of_mem_filter pendingX)
    simp only [left,List.mem_filter,whole,true_and]
    simp
  · rw [if_neg below] at left
    have same : pending runFilter { s with tree := s.tree.detach n } = pending runFilter s := by
      unfold pending ahead
      rw [left]
    rw [same,List.filter_eq_self.mpr]
    intro x pendingX
    simp only [left,decide_eq_true_eq]
    exact pending_mem pendingX

theorem swept_step {action : Action} (valid : Valid s) (here : Inside s) (spares : Spares s action)
    (forward : action ≠ .previousNode) (taken : step runFilter s action = some u) :
    (visits runFilter s [action] ++ pending runFilter u).Sublist (pending runFilter s) ∧
      ∀ x ∈ pending runFilter s,
        x ∈ visits runFilter s [action] ∨ x ∈ pending runFilter u ∨ x ∉ subtree u.tree u.root := by
  cases action with
  | nextNode =>
    have whole := pending_next valid here taken
    refine ⟨by rw [whole],?_⟩
    intro x there
    rw [← whole] at there
    rcases List.mem_append.mp there with visited | later
    · exact .inl visited
    · exact .inr (.inl later)
  | previousNode => exact absurd rfl forward
  | remove n =>
    have kept := pending_remove valid here spares taken
    have none_ : visits runFilter s [.remove n] = [] := by
      rw [visits,taken]
      rfl
    rw [none_,List.nil_append,kept]
    refine ⟨List.filter_sublist,?_⟩
    intro x there
    right
    by_cases inside : x ∈ subtree u.tree u.root
    · left
      rw [List.mem_filter]
      exact ⟨there,decide_eq_true inside⟩
    · exact .inr inside

theorem subtree_run {later : List Action} {t : State} (valid : Valid s)
    (ran : Runs.exec (step runFilter) s later = some t) : subtree t.tree t.root ⊆ subtree s.tree s.root := by
  induction later generalizing s with
  | nil =>
    obtain rfl := Option.some.inj ran
    exact List.Subset.refl _
  | cons action later ih =>
    obtain ⟨u,taken,onwards⟩ := Runs.exec_cons_success _ ran
    exact List.Subset.trans (ih (valid_step valid taken).1 onwards) (subtree_step valid taken)

theorem swept_run {later : List Action} {t : State} (valid : Valid s) (here : Inside s)
    (guarded : Runs.Guarded (step runFilter) Spares s later)
    (forward : ∀ action ∈ later, action ≠ .previousNode)
    (ran : Runs.exec (step runFilter) s later = some t) : Swept runFilter s later t := by
  induction later generalizing s with
  | nil =>
    obtain rfl := Option.some.inj ran
    refine ⟨by rw [visits_nil,List.nil_append],fun x there => .inr (.inl there),?_⟩
    rw [found_next valid here,Option.some.injEq,Option.map_eq_none_iff,List.head?_eq_none_iff]
  | cons action later ih =>
    obtain ⟨u,taken,onwards⟩ := Runs.exec_cons_success _ ran
    have validU := (valid_step valid taken).1
    have hereU := (inside_step valid here taken).mpr guarded.1
    obtain ⟨ordered,complete⟩ := swept_step valid here guarded.1
      (forward action List.mem_cons_self) taken
    have rest := ih validU hereU (guarded.2 u taken)
      (fun other there => forward other (List.mem_cons_of_mem action there)) onwards
    have shrinks := subtree_run validU onwards
    refine ⟨?_,?_,rest.null⟩
    · rw [visits_cons taken,List.append_assoc]
      exact (rest.ordered.append_left _).trans ordered
    · intro x there
      rw [visits_cons taken]
      rcases complete x there with visited | pendingU | gone
      · exact .inl (List.mem_append_left _ visited)
      · rcases rest.complete x pendingU with visited | still
        · exact .inl (List.mem_append_right _ visited)
        · exact .inr still
      · exact .inr (.inr fun inside => gone (shrinks inside))

end steps

section run

variable (page : Page) (runFilter : ℕ → ℕ)

theorem start_valid : Valid (start page) := ⟨page.nodup,page.inside⟩

theorem start_inside : Inside (start page) := List.mem_cons_self

theorem always_inside_iff (actions : List Action) : Runs.Always (step runFilter) Inside (start page) actions ↔
      Runs.Guarded (step runFilter) Spares (start page) actions := by
  refine @Runs.always_iff_guarded_unrefused _ _ (step runFilter) Spares Valid Inside ?_ ?_ actions _
    (start_valid page) (start_inside page)
  · intro s action u valid here taken
    exact ⟨(valid_step valid taken).1,inside_step valid here taken⟩
  · intro s action refused
    cases action with
    | remove n =>
      intro able
      rw [Option.map_eq_none_iff.mp refused] at able
      cases able
    | _ => trivial

/-- The reference node stays inside the root in exactly the runs whose removals spare it, and in
those every iteration visits what it has to. -/
theorem removals_iff (actions : List Action) : (Runs.Always (step runFilter) Inside (start page) actions ↔
        Runs.Guarded (step runFilter) Spares (start page) actions) ∧
      ∀ earlier later s t, actions = earlier ++ later →
        Runs.Guarded (step runFilter) Spares (start page) actions →
        Runs.exec (step runFilter) (start page) earlier = some s → (∀ action ∈ later, action ≠ .previousNode) →
        Runs.exec (step runFilter) s later = some t → Swept runFilter s later t := by
  refine ⟨always_inside_iff page runFilter actions,?_⟩
  rintro earlier later s t rfl guarded ran forward onwards
  obtain ⟨front,back⟩ := Runs.guarded_append _ guarded ran
  have kept : Valid s ∧ Inside s := by
    refine @Runs.exec_preserves _ _ (step runFilter) Spares (fun s => Valid s ∧ Inside s) ?_ _ _ _
      ⟨start_valid page,start_inside page⟩ front ran
    intro s action u both spares taken
    exact ⟨(valid_step both.1 taken).1,(inside_step both.1 both.2 taken).mpr spares⟩
  exact swept_run kept.1 kept.2 back forward onwards

end run

def pair : Page where
  tree := .cons 0 (.cons 1 .nil (.cons 2 .nil .nil)) .nil
  nodup := by decide
  root := 0
  inside := by decide

/-- Once the node just returned is removed, the iterator is stuck outside the root and never
reaches the child that is left. -/
theorem stranded : ¬ Runs.Always (step fun _ => 1) Inside (start pair)
      [.nextNode,.nextNode,.remove 1,.nextNode] ∧
    visits (fun _ => 1) (start pair) [.nextNode,.nextNode,.remove 1,.nextNode] = [0,1] := by
  constructor
  · intro always
    have final := Runs.always_final _ always rfl
    revert final
    unfold Inside
    decide
  · rfl

end Sharko.Script.Dom.NodeIterators
