import Sharko.Script.XPath.Order

/-! The axes: every axis yields nodes of the tree in document order, a reverse axis
backwards. -/

namespace Sharko.Script.XPath
open Library Rose Address

variable {d : Document}

def OnlyElements (s : Rose NodeData) : Prop :=
  ∀ w t, w ≠ [] → s.at? w = some t → t.data.nodeType ≠ .element → t.children = []

theorem onlyElements_at {id : Address} {s : Rose NodeData} (here : d.root.at? id = some s) :
    OnlyElements s := by
  intro w t proper found other
  have there : d.root.at? (w ++ id) = some t := by
    rw [at?_below,here]
    exact found
  cases bare : t.data.nodeType.hasChildren with
  | false => exact d.parents (w ++ id) t there bare
  | true =>
    cases w with
    | nil => exact absurd rfl proper
    | cons i w => exact absurd (d.roots i (w ++ id) t there bare) other

mutual

theorem descend_eq (test : Address → Bool) (s : Rose NodeData) (id : Address)
    (elements : OnlyElements s) : Document.descend test s id = (descendants s id).filter test := by
  cases s with
  | node data children =>
    refine descendFrom_eq test children 0 id ?_
    intro k child found w t there other
    refine elements (w ++ [k]) t (by simp) ?_ other
    rw [at?_child,found]
    exact there

theorem descendFrom_eq (test : Address → Bool) (children : List (Rose NodeData)) (i : Nat)
    (id : Address) (elements : ∀ (k : Nat) (child : Rose NodeData), children[k]? = some child →
      ∀ (w : Address) (t : Rose NodeData), child.at? w = some t →
      t.data.nodeType ≠ .element → t.children = []) :
    Document.descendFrom test children i id = (descendantsFrom children i id).filter test := by
  cases children with
  | nil => rfl
  | cons c rest =>
    have inner : OnlyElements c := fun w t _ there other => elements 0 c rfl w t there other
    have below : (if c.data.nodeType = .element then Document.descend test c (i :: id) else []) =
        (descendants c (i :: id)).filter test := by
      split_ifs with element
      · exact descend_eq test c (i :: id) inner
      · have bare := elements 0 c rfl [] c rfl element
        cases c with
        | node data children =>
          have none : children = [] := bare
          subst none
          rfl
    have later := descendFrom_eq test rest (i + 1) id fun k child found => elements (k + 1) child found
    rw [Document.descendFrom,descendantsFrom,below,later,List.filter_cons,List.filter_append]
    split_ifs <;> simp

end

theorem descendAt_eq (test : Address → Bool) (id : Address) :
    d.descendAt test id = ((d.root.at? id).elim [] fun s => descendants s id).filter test := by
  unfold Document.descendAt
  cases here : d.root.at? id with
  | none => rfl
  | some s => exact descend_eq test s id (onlyElements_at here)

theorem siblingRun_eq (test : Address → Bool) {i : Nat} {up : Address} (inside : d.root.Inside (i :: up)) :
    d.siblingRun test (i :: up) = (d.root.subtree (i :: up)).filter test := by
  obtain ⟨s,here⟩ := Option.isSome_iff_exists.mp inside
  have below : (if d.isElement (i :: up) then d.descendAt test (i :: up) else []) =
      (descendants s (i :: up)).filter test := by
    rw [descendAt_eq,here]
    split_ifs with element
    · rfl
    · have other : s.data.nodeType ≠ .element := by
        intro same
        exact element (by simp [Document.isElement,Document.kindOf,Document.dataOf,here,same])
      have above : d.root.at? up ≠ none := by
        intro none
        simp [at?,none] at here
      obtain ⟨parent,there⟩ := Option.ne_none_iff_exists'.mp above
      have bare := onlyElements_at there [i] s (by simp) (by simpa [at?,there] using here) other
      cases s with
      | node data children =>
        have none : children = [] := bare
        subst none
        rfl
  unfold Document.siblingRun subtree
  rw [below,here]
  simp only [Option.elim,List.filter_cons]
  split_ifs <;> simp

theorem following_eq (test : Address → Bool) (id : Address) :
    d.following test id = (d.root.following id).filter test := by
  induction id with
  | nil => rfl
  | cons i up ih =>
    rw [Document.following,Rose.following,List.filter_append,List.filter_flatMap,ih]
    congr 1
    apply List.flatMap_congr
    intro s sibling
    obtain ⟨j,_,rfl,inside⟩ := mem_laterSiblings.mp sibling
    exact siblingRun_eq test inside

theorem preceding_eq (test : Address → Bool) {id : Address} (inside : d.root.Inside id) :
    d.preceding test id = (d.root.preceding id).filter test := by
  induction id with
  | nil => rfl
  | cons i up ih =>
    have above : d.root.Inside up := inside.above (w := [i])
    rw [Document.preceding,Rose.preceding,List.filter_append,List.filter_flatMap,ih above]
    congr 1
    apply List.flatMap_congr
    intro s sibling
    obtain ⟨j,less,rfl⟩ := mem_earlierSiblings.mp sibling
    have there : d.root.Inside (j :: up) := inside_child.mpr (less.trans (inside_child.mp inside))
    rw [siblingRun_eq test there,List.filter_reverse]

namespace Document
variable (d : Document)

def reach (axis : Axis) (id : Address) : List Address :=
  match axis with
  | .child => (List.range (d.root.childCount id)).map (· :: id)
  | .descendant => (d.root.at? id).elim [] fun s => descendants s id
  | .descendantOrSelf => d.root.subtree id
  | .self => [id]
  | .parent => id.ancestors.take 1
  | .ancestor => id.ancestors
  | .ancestorOrSelf => id :: id.ancestors
  | .followingSibling => d.root.laterSiblings id
  | .precedingSibling => earlierSiblings id
  | .following => d.root.following id
  | .preceding => d.root.preceding id
  | .attribute | .namespaces => []

end Document

theorem childless {id : Address} {s : Rose NodeData} (here : d.root.at? id = some s)
    (bare : d.hasChildren id = false) : s.children = [] := by
  refine d.parents id s here ?_
  simpa [Document.hasChildren,Document.kindOf,Document.dataOf,here] using bare

theorem collectTree_eq (axis : Axis) (test : Address → Bool) {id : Address} (inside : d.root.Inside id) :
    d.collectTree axis test id = (d.reach axis id).filter test := by
  obtain ⟨s,here⟩ := Option.isSome_iff_exists.mp inside
  have below : (if d.hasChildren id then d.descendAt test id else []) = (descendants s id).filter test := by
    rw [descendAt_eq,here]
    split_ifs with parent
    · rfl
    · have none := childless here (Bool.eq_false_of_not_eq_true parent)
      cases s with
      | node data children =>
        subst none
        rfl
  cases axis with
  | child =>
    simp only [Document.collectTree,Document.reach]
    split_ifs with parent
    · rfl
    · have none := childless here (Bool.eq_false_of_not_eq_true parent)
      simp [childCount,here,none]
  | descendant => simpa [Document.collectTree,Document.reach,here] using below
  | descendantOrSelf =>
    simp only [Document.collectTree,Document.reach,subtree,here,Option.elim,below,List.filter_cons]
    split_ifs <;> simp
  | following => exact following_eq test id
  | preceding => exact preceding_eq test inside
  | ancestor | ancestorOrSelf | «attribute» | followingSibling | namespaces | parent | precedingSibling
  | self => rfl

theorem reach_rising {axis : Axis} (forward : axis.reverse = false) (id : Address) :
    (d.reach axis id).Pairwise Before := by
  cases axis with
  | ancestor | ancestorOrSelf | preceding | precedingSibling => simp [Axis.reverse] at forward
  | «attribute» | namespaces => exact List.Pairwise.nil
  | self => exact List.pairwise_singleton _ id
  | child =>
    refine List.pairwise_map.mpr (List.Pairwise.imp ?_ List.pairwise_lt_range)
    intro j k less
    exact (later_sibling [] [] less id).before
  | descendant =>
    unfold Document.reach
    cases d.root.at? id with
    | none => exact List.Pairwise.nil
    | some s => exact descendants_rising s id
  | descendantOrSelf => exact subtree_rising d.root id
  | following => exact following_rising d.root id
  | followingSibling => exact laterSiblings_rising d.root id
  | parent =>
    cases id with
    | nil => exact List.Pairwise.nil
    | cons i up => exact List.pairwise_singleton _ up

theorem reach_falling {axis : Axis} (backward : axis.reverse = true) {id : Address}
    (inside : d.root.Inside id) : (d.reach axis id).Pairwise fun a b => Before b a := by
  cases axis with
  | ancestor => exact ancestors_falling id
  | ancestorOrSelf =>
    refine List.Pairwise.cons ?_ (ancestors_falling id)
    intro a above
    obtain ⟨⟨w,rfl⟩,proper⟩ := mem_ancestors.mp above
    refine before_below ?_ a
    rintro rfl
    exact proper rfl
  | preceding => exact preceding_falling inside
  | precedingSibling => exact earlierSiblings_falling id
  | «attribute» | child | descendant | descendantOrSelf | following | followingSibling | namespaces
  | parent | self => simp [Axis.reverse] at backward

theorem reach_inside {axis : Axis} {id q : Address} (inside : d.root.Inside id)
    (reached : q ∈ d.reach axis id) : d.root.Inside q := by
  have upwards : q ∈ id.ancestors → d.root.Inside q := by
    intro above
    obtain ⟨⟨w,rfl⟩,_⟩ := mem_ancestors.mp above
    exact inside.above
  cases axis with
  | «attribute» | namespaces => simp [Document.reach] at reached
  | self => exact List.mem_singleton.mp reached ▸ inside
  | child =>
    simp only [Document.reach,List.mem_map,List.mem_range] at reached
    obtain ⟨i,less,rfl⟩ := reached
    exact inside_child.mpr less
  | descendant =>
    have below : q ∈ d.root.subtree id := by
      obtain ⟨s,here⟩ := Option.isSome_iff_exists.mp inside
      simp only [Document.reach,subtree,here,Option.elim] at reached ⊢
      exact List.mem_cons_of_mem id reached
    exact (mem_subtree.mp below).2
  | descendantOrSelf => exact (mem_subtree.mp reached).2
  | following => exact (mem_following.mp reached).2
  | preceding => exact ((mem_preceding inside).mp reached).2
  | ancestor => exact upwards reached
  | ancestorOrSelf =>
    rcases List.mem_cons.mp reached with rfl | above
    · exact inside
    · exact upwards above
  | parent => exact upwards (List.mem_of_mem_take reached)
  | followingSibling =>
    cases id with
    | nil => simp [Document.reach,laterSiblings] at reached
    | cons i up =>
      obtain ⟨_,_,_,there⟩ := mem_laterSiblings.mp reached
      exact there
  | precedingSibling =>
    cases id with
    | nil => simp [Document.reach,earlierSiblings] at reached
    | cons i up =>
      obtain ⟨j,less,rfl⟩ := mem_earlierSiblings.mp reached
      exact inside_child.mpr (less.trans (inside_child.mp inside))

namespace Document
variable (d : Document)

/-- A node of the tree, or an attribute. -/
def Holds : Node → Prop
  | .tree id => d.root.Inside id
  | .attr _ => True

/-- A node-set from the tree of a node: in document order, without duplicates. -/
structure NodeSet (n : Node) (set : List Node) : Prop where
  ordered : d.Ordered set
  inside : ∀ m ∈ set, d.Holds m
  oneTree : ∀ m ∈ set, d.rootOf m = d.rootOf n

/-- The node list of an axis in document order. -/
def NodesOn (axis : Axis) (n : Node) (list : List Node) : Prop :=
  d.NodeSet n (if axis.reverse then list.reverse else list)

end Document

theorem Document.NodeSet.sublist {n : Node} {set out : List Node} (nodes : d.NodeSet n set)
    (part : out.Sublist set) : d.NodeSet n out :=
  ⟨nodes.ordered.sublist part,fun m mem => nodes.inside m (part.subset mem),
    fun m mem => nodes.oneTree m (part.subset mem)⟩

theorem Document.NodesOn.sublist {axis : Axis} {n : Node} {list out : List Node}
    (nodes : d.NodesOn axis n list) (part : out.Sublist list) : d.NodesOn axis n out := by
  unfold Document.NodesOn at nodes ⊢
  split_ifs at nodes ⊢
  · exact nodes.sublist part.reverse
  · exact nodes.sublist part

theorem nodeSet_nil (n : Node) : d.NodeSet n [] :=
  ⟨ordered_short (by simp),by simp,by simp⟩

theorem nodeSet_single {n m : Node} (holds : d.Holds m) (tree : d.rootOf m = d.rootOf n) : d.NodeSet n [m] :=
  ⟨ordered_short (by simp),by simpa using holds,by simpa using tree⟩

theorem nodesOn_nil (axis : Axis) (n : Node) : d.NodesOn axis n [] := by
  unfold Document.NodesOn
  simpa using nodeSet_nil n

theorem nodesOn_single {axis : Axis} {n m : Node} (holds : d.Holds m) (tree : d.rootOf m = d.rootOf n) :
    d.NodesOn axis n [m] := by
  unfold Document.NodesOn
  simpa using nodeSet_single holds tree

theorem reach_nodesOn (axis : Axis) {id : Address} (inside : d.root.Inside id) {n : Node}
    (tree : d.rootOf n = .tree []) : d.NodesOn axis n ((d.reach axis id).map .tree) := by
  have holds : ∀ m ∈ (d.reach axis id).map Node.tree, d.Holds m := by
    intro m mem
    obtain ⟨q,reached,rfl⟩ := List.mem_map.mp mem
    exact reach_inside inside reached
  have same : ∀ m ∈ (d.reach axis id).map Node.tree, d.rootOf m = d.rootOf n := by
    intro m mem
    obtain ⟨q,_,rfl⟩ := List.mem_map.mp mem
    exact tree.symm
  unfold Document.NodesOn
  split_ifs with backward
  · exact ⟨tree_falling (reach_falling backward inside),fun m mem => holds m (List.mem_reverse.mp mem),
      fun m mem => same m (List.mem_reverse.mp mem)⟩
  · exact ⟨tree_ordered (reach_rising (Bool.eq_false_of_not_eq_true backward) id),holds,same⟩

theorem isElement_iff {id : Address} :
    d.isElement id = true ↔ (d.root.at? id).map (fun s => s.data.nodeType) = some .element := by
  simp only [Document.isElement,Document.kindOf,Document.dataOf,beq_iff_eq,Option.map_map]
  rfl

theorem item_attrNode {id : Address} {name : JsString} (element : d.isElement id = true)
    (listed : name ∈ d.attrNames id) :
    d.item (.attr (d.attrNode id name)) = (some id,1 + (d.attrNames id).idxOf name) := by
  have owner := d.attrNode_owner id name (isElement_iff.mp element)
  have same := d.attrNode_name id name (isElement_iff.mp element)
  simp [Document.item,Document.ownerId,owner,same,listed]

theorem attrNames_nodup (id : Address) : (d.attrNames id).Nodup := by
  unfold Document.attrNames Document.dataOf
  cases here : d.root.at? id with
  | none => exact List.nodup_nil
  | some s => exact d.names id s here

theorem idxOf_rising {names : List JsString} (distinct : names.Nodup) :
    names.Pairwise fun a b => names.idxOf a < names.idxOf b := by
  rw [List.pairwise_iff_getElem]
  intro i j first second less
  rwa [distinct.idxOf_getElem,distinct.idxOf_getElem]

theorem attributes_ordered (test : Test) (id : Address) : d.Ordered (d.collectAttributes test id) := by
  unfold Document.collectAttributes
  split_ifs with element
  · refine ordered_of_rising (List.pairwise_map.mpr ?_)
    refine ((idxOf_rising (attrNames_nodup id)).filter _).imp_of_mem ?_
    intro a b first second less
    unfold Document.rank
    rw [item_attrNode element (List.mem_of_mem_filter first),
      item_attrNode element (List.mem_of_mem_filter second),Prod.Lex.toLex_lt_toLex]
    exact .inr ⟨rfl,Nat.add_lt_add_left less 1⟩
  · exact ordered_short (by simp)

theorem attributes_nodeSet (test : Test) (id : Address) :
    d.NodeSet (.tree id) (d.collectAttributes test id) := by
  refine ⟨attributes_ordered test id,?_,?_⟩
  · intro m mem
    unfold Document.collectAttributes at mem
    split_ifs at mem
    · obtain ⟨name,_,rfl⟩ := List.mem_map.mp mem
      trivial
    · simp at mem
  · intro m mem
    unfold Document.collectAttributes at mem
    split_ifs at mem with element
    · obtain ⟨name,_,rfl⟩ := List.mem_map.mp mem
      have owner := d.attrNode_owner id name (isElement_iff.mp element)
      simp [Document.rootOf,Document.ownerId,owner]
    · simp at mem

theorem owner_inside {o : Nat} {id : Address} (owned : d.ownerId o = some id) : d.root.Inside id := by
  have element := d.owners o id owned
  unfold Inside
  cases here : d.root.at? id with
  | none => simp [here] at element
  | some s => rfl

theorem rank_owner {o : Nat} {id : Address} (owned : d.ownerId o = some id) :
    d.rank (.tree id) ≤ d.rank (.attr o) := by
  unfold Document.rank
  rw [Prod.Lex.toLex_le_toLex]
  right
  simp [Document.item,owned]

theorem ancestors_nodesOn {o : Nat} {id : Address} (owned : d.ownerId o = some id) :
    d.NodesOn .ancestorOrSelf (.attr o) (.attr o :: (d.reach .ancestorOrSelf id).map .tree) := by
  have inside := owner_inside owned
  have root : d.rootOf (.attr o) = .tree [] := by simp [Document.rootOf,owned]
  have above := reach_nodesOn .ancestorOrSelf inside root
  have last : ∀ m ∈ ((d.reach .ancestorOrSelf id).map Node.tree).reverse,d.rank m ≤ d.rank (.attr o) := by
    intro m mem
    obtain ⟨q,reached,rfl⟩ := List.mem_map.mp (List.mem_reverse.mp mem)
    rcases List.mem_cons.mp reached with rfl | upwards
    · exact rank_owner owned
    · have falling : (d.reach .ancestorOrSelf id).Pairwise fun a b => Before b a := reach_falling rfl inside
      have before := (List.pairwise_cons.mp falling).1 q upwards
      exact (rank_tree.mpr before).le.trans (rank_owner owned)
  unfold Document.NodesOn at above ⊢
  simp only [Axis.reverse,if_true,List.reverse_cons] at above ⊢
  refine ⟨⟨?_,?_⟩,?_,?_⟩
  · refine List.nodup_append.mpr ⟨above.ordered.nodup,by simp,?_⟩
    intro m mem k single same
    obtain ⟨q,_,rfl⟩ := List.mem_map.mp (List.mem_reverse.mp mem)
    rw [List.mem_singleton.mp single] at same
    exact Node.noConfusion same
  · refine List.pairwise_append.mpr ⟨above.ordered.sorted,List.pairwise_singleton _ _,?_⟩
    intro m mem k single
    exact List.mem_singleton.mp single ▸ last m mem
  · intro m mem
    rcases List.mem_append.mp mem with mem | single
    · exact above.inside m mem
    · exact List.mem_singleton.mp single ▸ trivial
  · intro m mem
    rcases List.mem_append.mp mem with mem | single
    · exact above.oneTree m mem
    · rw [List.mem_singleton.mp single]

theorem collectFromAttr_nodesOn (axis : Axis) (test : Test) (o : Nat) :
    d.NodesOn axis (.attr o) (d.collectFromAttr axis test o) := by
  have self : ∀ axis : Axis, d.NodesOn axis (.attr o) (if test = .node then [.attr o] else []) := by
    intro axis
    split_ifs
    · exact nodesOn_single trivial rfl
    · exact nodesOn_nil axis (.attr o)
  cases owned : d.ownerId o with
  | none =>
    cases axis with
    | self | descendantOrSelf => exact self _
    | ancestorOrSelf => simpa [Document.collectFromAttr,owned] using self .ancestorOrSelf
    | ancestor | «attribute» | child | descendant | following | followingSibling | namespaces | parent
    | preceding | precedingSibling =>
      simp [Document.collectFromAttr,owned,nodesOn_nil]
  | some id =>
    have inside := owner_inside owned
    have root : d.rootOf (.attr o) = .tree [] := by simp [Document.rootOf,owned]
    have upwards := ancestors_nodesOn owned
    cases axis with
    | self | descendantOrSelf => exact self _
    | parent =>
      refine (nodesOn_single (m := .tree id) inside root.symm).sublist ?_
      simp only [Document.collectFromAttr,owned,Option.toList]
      exact List.filter_sublist.map Node.tree
    | ancestor =>
      have above : d.NodesOn .ancestor (.attr o) ((d.reach .ancestorOrSelf id).map .tree) :=
        upwards.sublist (List.sublist_cons_self _ _)
      refine above.sublist ?_
      simp only [Document.collectFromAttr,owned,Option.toList,List.flatMap_singleton]
      exact List.filter_sublist.map Node.tree
    | ancestorOrSelf =>
      refine upwards.sublist ?_
      have below := (List.filter_sublist (p := d.treeTest test) (l := id :: id.ancestors)).map Node.tree
      simp only [Document.collectFromAttr,owned,Option.toList,List.flatMap_singleton]
      split_ifs
      · exact below.cons_cons (.attr o)
      · exact below.cons (.attr o)
    | following =>
      refine (reach_nodesOn .following inside root).sublist ?_
      simp only [Document.collectFromAttr,owned,Option.toList,List.flatMap_singleton,following_eq]
      exact List.filter_sublist.map Node.tree
    | preceding =>
      refine (reach_nodesOn .preceding inside root).sublist ?_
      simp only [Document.collectFromAttr,owned,Option.toList,List.flatMap_singleton,preceding_eq _ inside]
      exact List.filter_sublist.map Node.tree
    | «attribute» | child | descendant | followingSibling | namespaces | precedingSibling =>
      exact nodesOn_nil _ (.attr o)

theorem collect_nodesOn (axis : Axis) (test : Test) {n : Node} (holds : d.Holds n) :
    d.NodesOn axis n (d.collect axis test n) := by
  cases n with
  | attr o => exact collectFromAttr_nodesOn axis test o
  | tree id =>
    simp only [Document.collect]
    split_ifs with attributes
    · subst attributes
      exact attributes_nodeSet test id
    · rw [collectTree_eq axis _ holds]
      exact (reach_nodesOn axis holds rfl).sublist (List.filter_sublist.map Node.tree)

end Sharko.Script.XPath
