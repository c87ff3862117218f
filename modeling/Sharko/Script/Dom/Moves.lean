import Mathlib
import Sharko.Library.Grafting
import Sharko.Script.Dom.Nodes

/-! The native moves of nodes: insertion before a sibling, replacement and the removal of all
children, with what they do to the root and the ancestors of every node. -/

namespace Sharko.Script.Dom.NodeTree

open Sharko.Library

variable (t : NodeTree)

def rootOf (id : ℕ) : ℕ := (t.ancestors id).getLast?.getD id

def childIds (id : ℕ) : List ℕ := (t.children id).roots

def moved (fragment : Bool) (id : ℕ) : NodeTree :=
  if fragment then t.children id else .cons id (t.children id) .nil

def staying (fragment : Bool) (id : ℕ) : NodeTree :=
  if fragment then t.clear id else t.without id

/-- `N.insertBefore`; none where the node would be put below itself. -/
def insertBefore (pid nid : ℕ) (fragment : Bool) (ref : Option ℕ) : Option NodeTree :=
  let rest := staying t fragment nid
  if nid ∈ t.nodes ∧ pid ∈ rest.nodes ∧ nid ≠ pid then
    let kids := childIds rest pid
    let i :=
      match ref with
      | none => kids.length
      | some ref => kids.idxOf ref
    some (rest.graft pid i (moved t fragment nid))
  else none

def source (fragment : Bool) (nid : ℕ) : Option ℕ := if fragment then some nid else parent t nid

def freeChildren (id : ℕ) : NodeTree := (t.children id).append (t.clear id)

section moves

variable {t : NodeTree} {u : NodeTree} {pid nid x : ℕ} {fragment : Bool}

theorem moved_staying_perm (inside : nid ∈ t.nodes) :
    t.nodes.Perm ((moved t fragment nid).nodes ++ (staying t fragment nid).nodes) := by
  cases fragment with
  | true => exact Forest.clear_perm inside
  | false =>
    refine (Forest.without_perm inside).trans ?_
    rw [moved,if_neg Bool.false_ne_true,staying,if_neg Bool.false_ne_true,Forest.nodes_cons,
      Forest.nodes_nil,List.append_nil,List.cons_append]

theorem moved_apart (nodup : t.nodes.Nodup) (inside : nid ∈ t.nodes) :
    ∀ x ∈ (moved t fragment nid).nodes, x ∉ (staying t fragment nid).nodes := by
  have whole : t.nodes.Perm ((moved t fragment nid).nodes ++ (staying t fragment nid).nodes) :=
    moved_staying_perm inside
  have both := whole.nodup_iff.mp nodup
  exact fun x here there => (List.nodup_append.mp both).2.2 x here x there rfl

theorem staying_nodup (nodup : t.nodes.Nodup) (inside : nid ∈ t.nodes) : (staying t fragment nid).nodes.Nodup :=
  (List.nodup_append.mp ((moved_staying_perm inside).nodup_iff.mp nodup)).2.1

theorem moved_subset (there : x ∈ (moved t fragment nid).nodes) : x ∈ subtree t nid := by
  cases fragment with
  | true => exact List.mem_cons_of_mem _ there
  | false => simpa [moved,subtree] using there

theorem nodes_moved_false (t : NodeTree) (nid : ℕ) : (moved t false nid).nodes = subtree t nid := by
  rw [moved,if_neg Bool.false_ne_true,Forest.nodes_cons,Forest.nodes_nil,List.append_nil,subtree]

theorem children_moved (below : x ∈ (t.children nid).nodes) : x ∈ (moved t fragment nid).nodes := by
  cases fragment with
  | true => exact below
  | false => exact List.mem_cons_of_mem _ (List.mem_append_left _ below)

theorem moved_or_staying (inside : nid ∈ t.nodes) (there : x ∈ t.nodes) :
    x ∈ (moved t fragment nid).nodes ∨ x ∈ (staying t fragment nid).nodes :=
  List.mem_append.mp ((moved_staying_perm inside).mem_iff.mp there)

theorem ancestors_staying (nodup : t.nodes.Nodup) (inside : nid ∈ t.nodes)
    (there : x ∈ (staying t fragment nid).nodes) : (staying t fragment nid).ancestors x = t.ancestors x := by
  cases fragment with
  | true => exact Forest.ancestors_clear nodup inside there
  | false => exact Forest.ancestors_without nodup inside there

theorem rootOf_eq {t u : NodeTree} (same : u.ancestors x = t.ancestors x) : rootOf u x = rootOf t x := by
  rw [rootOf,rootOf,same]

theorem insertBefore_some {ref : Option ℕ} (done : insertBefore t pid nid fragment ref = some u) :
    nid ∈ t.nodes ∧ pid ∈ (staying t fragment nid).nodes ∧ nid ≠ pid ∧
      ∃ i, u = (staying t fragment nid).graft pid i (moved t fragment nid) := by
  rw [insertBefore] at done
  split at done
  next able => exact ⟨able.1,able.2.1,able.2.2,_,(Option.some.inj done).symm⟩
  next => cases done

section parents

variable {t : NodeTree} {pid nid : ℕ} (nodup : t.nodes.Nodup) (child : parent t nid = some pid)
include child

theorem child_inside : nid ∈ t.nodes := by
  by_contra outside
  rw [parent,Forest.ancestors_of_not_mem outside] at child
  cases child

include nodup

theorem ancestors_child : t.ancestors nid = pid :: t.ancestors pid := by
  cases chain : t.ancestors nid with
  | nil =>
    rw [parent,chain] at child
    cases child
  | cons p rest =>
    rw [parent,chain] at child
    cases child
    rw [Forest.ancestors_parent nodup chain]

theorem rootOf_child : rootOf t nid = rootOf t pid := by
  rw [rootOf,ancestors_child nodup child,rootOf,List.getLast?_cons]
  rfl

theorem parent_inside : pid ∈ t.nodes := by
  apply Forest.ancestors_subset (a := nid)
  rw [ancestors_child nodup child]
  exact List.mem_cons_self

theorem parent_outside : pid ∉ subtree t nid := by
  have inside := child_inside child
  have chain := ancestors_child nodup child
  have bare := Forest.ancestors_nodup nodup nid
  rw [chain,List.nodup_cons] at bare
  intro there
  rcases List.mem_cons.mp there with rfl | below
  · exact bare.1 List.mem_cons_self
  · have inside : pid ∈ t.nodes := (Forest.children_sublist nid t).subset below
    exact bare.1 (List.mem_cons_of_mem _ ((Forest.mem_children_iff nodup inside).mp below))

end parents

theorem insertBefore_perm {ref : Option ℕ} (done : insertBefore t pid nid fragment ref = some u) :
    u.nodes.Perm t.nodes := by
  obtain ⟨inside,there,-,i,rfl⟩ := insertBefore_some done
  exact (Forest.graft_perm there).trans
    (List.perm_append_comm.trans (moved_staying_perm inside).symm)

section inserted

variable {ref : Option ℕ} (nodup : t.nodes.Nodup)
  (done : insertBefore t pid nid fragment ref = some u)
include nodup done

theorem insertBefore_nodup : u.nodes.Nodup := (insertBefore_perm done).nodup_iff.mpr nodup

theorem ancestors_moved (new : x ∈ (moved t fragment nid).nodes) :
    u.ancestors x = (moved t fragment nid).ancestors x ++ pid :: t.ancestors pid := by
  obtain ⟨inside,there,-,i,rfl⟩ := insertBefore_some done
  rw [Forest.ancestors_graft_new (staying_nodup nodup inside) there (moved_apart nodup inside) new,
    ancestors_staying nodup inside there]

theorem ancestors_stayed (old : x ∈ (staying t fragment nid).nodes) : u.ancestors x = t.ancestors x := by
  obtain ⟨inside,there,-,i,rfl⟩ := insertBefore_some done
  rw [Forest.ancestors_graft_old (staying_nodup nodup inside) there (moved_apart nodup inside) old,
    ancestors_staying nodup inside old]

theorem rootOf_moved (new : x ∈ (moved t fragment nid).nodes) : rootOf u x = rootOf t pid := by
  rw [rootOf,ancestors_moved nodup done new,rootOf,List.getLast?_append,List.getLast?_cons]
  rfl

theorem rootOf_stayed (old : x ∈ (staying t fragment nid).nodes) : rootOf u x = rootOf t x :=
  rootOf_eq (ancestors_stayed nodup done old)

theorem not_above_parent : nid ∉ t.ancestors pid := by
  intro above
  obtain ⟨inside,there,-⟩ := insertBefore_some done
  have within : pid ∈ t.nodes :=
    (moved_staying_perm inside).mem_iff.mpr (List.mem_append_right _ there)
  have below := (Forest.mem_children_iff nodup within).mpr above
  exact moved_apart nodup inside pid (children_moved below) there

section replaced

variable {cid : ℕ} (child : parent t cid = some pid) (other : nid ≠ cid)
include child other

theorem replaced_stays : cid ∉ (moved t fragment nid).nodes := by
  intro there
  rcases List.mem_cons.mp (moved_subset there) with rfl | below
  · exact other rfl
  · have above := (Forest.mem_children_iff nodup (child_inside child)).mp below
    rw [ancestors_child nodup child] at above
    rcases List.mem_cons.mp above with rfl | above
    · exact (insertBefore_some done).2.2.1 rfl
    · exact not_above_parent nodup done above

theorem parent_replaced : parent u cid = some pid := by
  obtain ⟨inside,-⟩ := insertBefore_some done
  have stays := replaced_stays nodup done child other
  have there := (moved_or_staying inside (child_inside child)).resolve_left stays
  rw [parent,ancestors_stayed nodup done there]
  exact child

theorem mem_subtree_replaced (there : x ∈ t.nodes) :
    x ∈ subtree u cid ↔ x ∈ subtree t cid ∧ x ∉ (moved t fragment nid).nodes := by
  obtain ⟨inside,-⟩ := insertBefore_some done
  have nodupU := insertBefore_nodup nodup done
  have within := (insertBefore_perm done).mem_iff.mpr there
  have stays := replaced_stays nodup done child other
  rw [subtree,List.mem_cons,subtree,List.mem_cons,Forest.mem_children_iff nodupU within,
    Forest.mem_children_iff nodup there]
  by_cases new : x ∈ (moved t fragment nid).nodes
  · have apart : x ≠ cid := fun same => stays (same ▸ new)
    have outside := parent_outside nodup child
    rw [subtree,List.mem_cons,not_or] at outside
    have inside := parent_inside nodup child
    rw [ancestors_moved nodup done new]
    simp only [new,not_true,and_false,iff_false,not_or,List.mem_append,List.mem_cons]
    refine ⟨apart,fun above => stays (Forest.ancestors_subset above),Ne.symm outside.1,?_⟩
    exact fun above => outside.2 ((Forest.mem_children_iff nodup inside).mpr above)
  · have old := (moved_or_staying inside there).resolve_left new
    rw [ancestors_stayed nodup done old]
    simp [new]

end replaced

end inserted

theorem freeChildren_perm (inside : nid ∈ t.nodes) : (freeChildren t nid).nodes.Perm t.nodes := by
  rw [freeChildren,Forest.nodes_append]
  exact (Forest.clear_perm inside).symm

section removed

variable (nodup : t.nodes.Nodup) (inside : nid ∈ t.nodes)
include nodup inside

theorem ancestors_detach (there : x ∈ t.nodes) : (t.detach nid).ancestors x =
      if x = nid then [] else if x ∈ (t.children nid).nodes then (t.children nid).ancestors x ++ [nid]
      else t.ancestors x := by
  rw [Forest.detach,Forest.ancestors]
  by_cases same : nid = x
  · rw [if_pos same,if_pos same.symm]
  rw [if_neg same,if_neg (Ne.symm same)]
  by_cases below : x ∈ (t.children nid).nodes
  · rw [if_pos below,if_pos below]
  · rw [if_neg below,if_neg below]
    apply Forest.ancestors_without nodup inside
    rw [Forest.mem_without nodup inside,List.mem_cons,not_or]
    exact ⟨there,Ne.symm same,below⟩

theorem rootOf_detach (there : x ∈ t.nodes) :
    rootOf (t.detach nid) x = if x ∈ subtree t nid then nid else rootOf t x := by
  rw [rootOf,ancestors_detach nodup inside there,subtree]
  by_cases same : x = nid
  · simp [same]
  by_cases below : x ∈ (t.children nid).nodes
  · simp [same,below]
  · simp [same,below,rootOf]

theorem rootOf_subtree (there : x ∈ subtree t nid) : rootOf t x = rootOf t nid := by
  rcases List.mem_cons.mp there with rfl | below
  · rfl
  · rw [rootOf,ancestors_subtree nodup inside below,rootOf,List.getLast?_append,List.getLast?_cons]
    rfl

theorem ancestors_freed (there : x ∈ t.nodes) : (freeChildren t nid).ancestors x =
      if x ∈ (t.children nid).nodes then (t.children nid).ancestors x else t.ancestors x := by
  rw [freeChildren,Forest.ancestors_appended]
  by_cases below : x ∈ (t.children nid).nodes
  · rw [if_pos below,if_pos below]
  · have kept := (List.mem_append.mp ((Forest.clear_perm inside).mem_iff.mp there)).resolve_left below
    rw [if_neg below,if_neg below,Forest.ancestors_clear nodup inside kept]

theorem rootOf_freed (there : x ∈ t.nodes) : rootOf (freeChildren t nid) x =
      if x ∈ (t.children nid).nodes then rootOf (t.children nid) x else rootOf t x := by
  rw [rootOf,ancestors_freed nodup inside there]
  split <;> rfl

end removed

theorem rootOf_mem {f : NodeTree} (inside : x ∈ f.nodes) : rootOf f x ∈ f.roots := by
  induction f with
  | nil => cases inside
  | cons r c n _ ihn =>
    rw [rootOf,Forest.ancestors,Forest.roots]
    by_cases same : r = x
    · simp [same]
    by_cases below : x ∈ c.nodes
    · simp [same,below]
    · have behind : x ∈ n.nodes := by simpa [Ne.symm same,below] using inside
      rw [if_neg same,if_neg below]
      exact List.mem_cons_of_mem r (ihn behind)

theorem rootOf_inside {f : NodeTree} (inside : x ∈ f.nodes) : rootOf f x ∈ f.nodes :=
  Forest.roots_subset (rootOf_mem inside)

theorem mem_subtree_rootOf {t : NodeTree} (nodup : t.nodes.Nodup) (inside : x ∈ t.nodes) :
    x ∈ subtree t (rootOf t x) := by
  rw [rootOf,subtree,List.mem_cons]
  cases last : (t.ancestors x).getLast? with
  | none => exact .inl rfl
  | some r =>
    apply Or.inr
    exact (Forest.mem_children_iff nodup inside).mpr (List.mem_of_getLast? last)

theorem rootOf_added {f : NodeTree} {id : ℕ} (fresh : id ∉ f.nodes) (inside : x ∈ f.nodes) :
    rootOf (.cons id .nil f) x = rootOf f x := by
  have other : id ≠ x := fun same => fresh (same ▸ inside)
  simp [rootOf,Forest.ancestors,other]

section childIds

variable {t : NodeTree} {nid q : ℕ} (nodup : t.nodes.Nodup) (inside : nid ∈ t.nodes)
include nodup inside

theorem childIds_detach (other : parent t nid ≠ some q) : childIds (t.detach nid) q = childIds t q := by
  by_cases there : q ∈ t.nodes
  · rw [childIds,Forest.children_detach nodup inside there]
    split
    · apply Forest.roots_without
      intro root
      apply other
      rw [parent,Forest.ancestors_of_root nodup root]
      rfl
    · rfl
  · have away : q ∉ (t.detach nid).nodes := mt (Forest.detach_perm inside).mem_iff.mp there
    rw [childIds,Forest.children_of_not_mem away,childIds,Forest.children_of_not_mem there]

theorem childIds_freed (other : nid ≠ q) : childIds (freeChildren t nid) q = childIds t q := by
  rw [childIds,freeChildren,Forest.children_append]
  split
  next below => rw [childIds,Forest.children_children nodup inside below]
  next outside => exact Forest.roots_children_clear nodup inside other outside

theorem childIds_moved {fragment : Bool} (new : q ∈ (moved t fragment nid).nodes) :
    ((moved t fragment nid).children q).roots = childIds t q := by
  cases fragment with
  | true =>
    change q ∈ (t.children nid).nodes at new
    rw [moved,if_pos rfl,childIds,Forest.children_children nodup inside new]
  | false =>
    rw [moved,if_neg Bool.false_ne_true,Forest.children_cons]
    split
    next same => rw [same,childIds]
    next other =>
      have below : q ∈ (t.children nid).nodes :=
        (List.mem_cons.mp (moved_subset new)).resolve_left (Ne.symm other)
      rw [if_pos below,childIds,Forest.children_children nodup inside below]

theorem childIds_staying {fragment : Bool} (old : q ∉ (moved t fragment nid).nodes)
    (other : source t fragment nid ≠ some q) : childIds (staying t fragment nid) q = childIds t q := by
  cases fragment with
  | true => exact Forest.roots_children_clear nodup inside (fun same => other (congrArg some same)) old
  | false =>
    rw [nodes_moved_false,subtree,List.mem_cons,not_or] at old
    rw [← childIds_detach nodup inside other,childIds,childIds,Forest.detach,Forest.children_cons,
      if_neg (Ne.symm old.1),if_neg old.2]
    rfl

end childIds

theorem childIds_insertBefore {t u : NodeTree} {pid nid q : ℕ} {fragment : Bool} {ref : Option ℕ}
    (nodup : t.nodes.Nodup) (done : insertBefore t pid nid fragment ref = some u) (away : q ≠ pid)
    (other : source t fragment nid ≠ some q) : childIds u q = childIds t q := by
  obtain ⟨inside,there,-,i,rfl⟩ := insertBefore_some done
  rw [childIds,Forest.roots_children_graft (staying_nodup nodup inside) there
    (moved_apart nodup inside),if_neg away]
  split
  next new => exact childIds_moved nodup inside new
  next old => exact childIds_staying nodup inside old other

end moves

end Sharko.Script.Dom.NodeTree
