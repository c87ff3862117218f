import Mathlib
import Sharko.Library.Navigation

/-! The native node functions over the trees of a page: a forest of node ids, the document and
every detached tree at its top. -/

namespace Sharko.Script.Dom

open Sharko.Library

abbrev NodeTree := Forest ℕ

namespace NodeTree

variable (t : NodeTree)

def firstChild (id : ℕ) : Option ℕ := (t.children id).first

def lastChild (id : ℕ) : Option ℕ := (t.children id).last

def parent (id : ℕ) : Option ℕ := (t.ancestors id).head?

def nextSibling (id : ℕ) : Option ℕ := (parent t id).bind fun _ => t.nextOf id

def prevSibling (id : ℕ) : Option ℕ := (parent t id).bind fun _ => t.prevOf id

def subtree (id : ℕ) : List ℕ := id :: (t.children id).nodes

def removeChild (id : ℕ) : Option NodeTree := (parent t id).map fun _ => t.detach id

section below

variable {t : NodeTree} {root x : ℕ} (nodup : t.nodes.Nodup) (inside : root ∈ t.nodes)
  (below : x ∈ (t.children root).nodes)
include nodup inside below

theorem ancestors_subtree : t.ancestors x = (t.children root).ancestors x ++ root :: t.ancestors root :=
  Forest.ancestors_children nodup inside below

theorem firstChild_below : firstChild t x = ((t.children root).children x).first := by
  rw [firstChild,Forest.children_children nodup inside below]

theorem lastChild_below : lastChild t x = ((t.children root).children x).last := by
  rw [lastChild,Forest.children_children nodup inside below]

theorem parent_below : parent t x = ((t.children root).ancestors x).head?.or (some root) := by
  rw [parent,ancestors_subtree nodup inside below,List.head?_append]
  rfl

theorem nextSibling_below : nextSibling t x = (t.children root).nextOf x := by
  rw [nextSibling,parent_below nodup inside below,Forest.nextOf_children nodup inside below]
  cases ((t.children root).ancestors x).head? <;> rfl

theorem prevSibling_below : prevSibling t x = (t.children root).prevOf x := by
  rw [prevSibling,parent_below nodup inside below,Forest.prevOf,
    Forest.prevFrom_children nodup inside below]
  cases ((t.children root).ancestors x).head? <;> rfl

end below

theorem subtree_nodup {t : NodeTree} (nodup : t.nodes.Nodup) (root : ℕ) : (subtree t root).Nodup :=
  List.nodup_cons.mpr ⟨Forest.not_below_self nodup root,nodup.sublist (Forest.children_sublist root t)⟩

theorem subtree_length {t : NodeTree} (nodup : t.nodes.Nodup) {root : ℕ} (inside : root ∈ t.nodes) :
    (subtree t root).length ≤ t.nodes.length := by
  apply ((subtree_nodup nodup root).subperm _).length_le
  intro x there
  rcases List.mem_cons.mp there with rfl | below
  · exact inside
  · exact (Forest.children_sublist root t).subset below

theorem subtree_detach {t : NodeTree} (nodup : t.nodes.Nodup) {a root : ℕ} (inside : a ∈ t.nodes)
    (there : root ∈ t.nodes) : subtree (t.detach a) root =
      if a ∈ (t.children root).nodes then (subtree t root).filter fun x => !decide (x ∈ subtree t a)
      else subtree t root := by
  unfold subtree
  rw [Forest.children_detach nodup inside there]
  split
  next below =>
    have inner := Forest.children_children nodup there below
    have nodupBelow := nodup.sublist (Forest.children_sublist root t)
    have kept : root ∉ a :: (t.children a).nodes := by
      rw [inner,List.mem_cons,not_or]
      refine ⟨?_,fun under => Forest.not_below_self nodup root
        ((Forest.children_sublist a _).subset under)⟩
      rintro rfl
      exact Forest.not_below_self nodup root below
    rw [Forest.nodes_without nodupBelow below,← inner,List.filter_cons_of_pos (by simpa using kept)]
  next => rfl

end NodeTree

end Sharko.Script.Dom
