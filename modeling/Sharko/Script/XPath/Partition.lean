import Mathlib
import Sharko.Script.XPath.Merging

/-! The axes from a node share out the tree. -/

namespace Sharko.Script.XPath
open Library Rose Address

variable {d : Document} {id q : Address}

theorem mem_collect_node {axis : Axis} (ofTree : axis ≠ .attribute) (inside : d.root.Inside id) :
    .tree q ∈ d.collect axis .node (.tree id) ↔ q ∈ d.reach axis id := by
  rw [mem_collect_tree ofTree inside]
  constructor
  · rintro ⟨a,reached,-,same⟩
    cases same
    exact reached
  · intro reached
    exact ⟨q,reached,rfl,rfl⟩

/-- Where a node is, seen from another. -/
def side : Axis → Address → Address → Prop
  | .ancestor,id,q => q <:+ id ∧ q ≠ id
  | .descendant,id,q => id <:+ q ∧ q ≠ id
  | .following,id,q => Branches id q
  | .preceding,id,q => Branches q id
  | _,id,q => q = id

def parts : List Axis := [.ancestor,.descendant,.following,.preceding,.self]

theorem mem_reach_side {axis : Axis} (part : axis ∈ parts) (inside : d.root.Inside id)
    (there : d.root.Inside q) : q ∈ d.reach axis id ↔ side axis id q := by
  simp only [parts,List.mem_cons,List.not_mem_nil,or_false] at part
  rcases part with rfl | rfl | rfl | rfl | rfl
  · exact mem_ancestors
  · rw [mem_reach_descendant inside]
    constructor
    · rintro ⟨w,proper,rfl,-⟩
      exact ⟨List.suffix_append w id,fun same => proper (List.append_left_eq_self.mp same)⟩
    · rintro ⟨⟨w,rfl⟩,proper⟩
      exact ⟨w,fun none => proper (by simp [none]),rfl,there⟩
  · exact mem_following.trans (and_iff_left there)
  · exact (mem_preceding inside).trans (and_iff_left there)
  · exact List.mem_singleton

theorem side_unique {axis other : Axis} (part : axis ∈ parts) (part' : other ∈ parts)
    (here : side axis id q) (there : side other id q) : axis = other := by
  have nested : q <:+ id → id <:+ q → q = id := fun up down => up.eq_of_length_le down.length_le
  have equal : q = id → q <:+ id ∧ id <:+ q := by
    rintro rfl
    exact ⟨List.suffix_rfl,List.suffix_rfl⟩
  have right : Branches id q → ¬id <:+ q ∧ ¬q <:+ id := Branches.apart
  have left : Branches q id → ¬q <:+ id ∧ ¬id <:+ q := Branches.apart
  have both : ¬(Branches id q ∧ Branches q id) := fun ⟨first,second⟩ =>
    before_asymm first.before second.before
  simp only [parts,List.mem_cons,List.not_mem_nil,or_false] at part part'
  rcases part with rfl | rfl | rfl | rfl | rfl <;> rcases part' with rfl | rfl | rfl | rfl | rfl
  all_goals
    simp only [side] at here there
    first
    | rfl
    | exfalso; tauto

theorem sides (id q : Address) : ∃! axis,axis ∈ parts ∧ side axis id q := by
  have found : ∃ axis ∈ parts,side axis id q := by
    by_cases same : q = id
    · exact ⟨.self,by decide,same⟩
    rcases Address.cases id q with below | above | right | left
    · exact ⟨.descendant,by decide,below,same⟩
    · exact ⟨.ancestor,by decide,above,same⟩
    · exact ⟨.following,by decide,right⟩
    · exact ⟨.preceding,by decide,left⟩
  obtain ⟨axis,part,here⟩ := found
  exact ⟨axis,⟨part,here⟩,fun other there => side_unique there.1 part there.2 here⟩

/-- Every node of the tree is on exactly one of the five axes from a node, and each axis is in its
order. What follows an attribute is what follows its element: the children of the element do not. -/
theorem axes_partition (d : Document) : (∀ id,d.root.Inside id →
      (∀ q,d.root.Inside q → ∃! axis,axis ∈ parts ∧ .tree q ∈ d.collect axis .node (.tree id)) ∧
      ∀ axis ∈ parts,∀ m ∈ d.collect axis .node (.tree id),∃ q,m = .tree q ∧ d.root.Inside q) ∧
    (∀ axis test n,d.Holds n → d.NodesOn axis n (d.collect axis test n)) ∧ ∀ o id test,d.ownerId o = some id →
      d.collect .following test (.attr o) = d.collect .following test (.tree id) ∧
        d.collect .preceding test (.attr o) = d.collect .preceding test (.tree id) := by
  refine ⟨fun id inside => ⟨fun q there => ?_,fun axis part m mem => ?_⟩,
    fun axis test n => collect_nodesOn axis test,fun o id test owned => ?_⟩
  · obtain ⟨axis,⟨part,here⟩,only⟩ := sides id q
    have ofTree {axis : Axis} (part : axis ∈ parts) : axis ≠ .attribute := by
      rintro rfl
      exact absurd part (by decide)
    refine ⟨axis,⟨part,?_⟩,?_⟩
    · exact (mem_collect_node (ofTree part) inside).mpr ((mem_reach_side part inside there).mpr here)
    · rintro other ⟨part',collected⟩
      have reached := (mem_collect_node (ofTree part') inside).mp collected
      exact only other ⟨part',(mem_reach_side part' inside there).mp reached⟩
  · have ofTree : axis ≠ .attribute := by
      rintro rfl
      exact absurd part (by decide)
    obtain ⟨q,reached,-,rfl⟩ := (mem_collect_tree ofTree inside).mp mem
    exact ⟨q,rfl,reach_inside inside reached⟩
  · simp [Document.collect,Document.collectFromAttr,Document.collectTree,owned]

namespace Sample

/-- `<a k="1"><b/></a>` -/
def small : Rose NodeData := element "a" [(js "k",js "1")] [element "b" [] []]

theorem small_cases {a : Address} {s : Rose NodeData} (here : small.at? a = some s) :
    s.data.nodeType = .element ∧ (s.data.attributes.map Prod.fst).Nodup := by
  have inside : a ∈ small.subtree [] :=
    mem_subtree.mpr ⟨List.nil_suffix,Option.isSome_iff_exists.mpr ⟨s,here⟩⟩
  have addresses : small.subtree [] = [[],[0]] := rfl
  rw [addresses] at inside
  simp only [List.mem_cons,List.not_mem_nil,or_false] at inside
  rcases inside with rfl | rfl
  all_goals
    cases here
    exact ⟨rfl,by decide⟩

def smallAttr (o : Nat) : Attr :=
  match (Encodable.decode o : Option (List Nat × List Nat)) with
  | none => ⟨none,[],[],none,none,[]⟩
  | some (a,name) =>
    let name := name.map UInt16.ofNat
    ⟨if small.Inside a then some a else none,name,name,none,none,[]⟩

def smallDocument : Document where
  root := small
  attr := smallAttr
  attrNode a name := Encodable.encode (a,name.map UInt16.toNat)
  isDocument := false
  htmlMode := false
  getElementById _ := none
  querySelectorId _ := none
  parents a s here bare := by
    rw [(small_cases here).1] at bare
    cases bare
  roots i a s here _ := (small_cases here).1
  names a s here := (small_cases here).2
  owners o a owned := by
    unfold smallAttr at owned
    split at owned
    · cases owned
    · dsimp only at owned
      split_ifs at owned with inside
      cases owned
      obtain ⟨s,here⟩ := Option.isSome_iff_exists.mp inside
      rw [here]
      exact congrArg some (small_cases here).1
  attrNode_owner a name element := by
    have inside : small.Inside a := by
      unfold Inside
      cases here : small.at? a with
      | none => simp [here] at element
      | some s => rfl
    simp [smallAttr,inside]
  attrNode_name a name element := by
    simp [smallAttr,Function.comp_def]
  getElementById_inside s a found := by cases found
  querySelectorId_inside s a found := by cases found

/-- The child of the element does not follow the attribute. -/
theorem child_not_following :
    .attr (smallDocument.attrNode [] (js "k")) ∈ smallDocument.collect .attribute .node (.tree []) ∧
      .tree [0] ∈ smallDocument.collect .descendant .node (.tree []) ∧
      .tree [0] ∉ smallDocument.collect .following .node (.attr (smallDocument.attrNode [] (js "k"))) := by
  have owned : smallDocument.ownerId (smallDocument.attrNode [] (js "k")) = some [] :=
    smallDocument.attrNode_owner [] (js "k") rfl
  refine ⟨by decide,by decide,?_⟩
  simp [Document.collect,Document.collectFromAttr,owned,Document.following]

end Sample

end Sharko.Script.XPath
