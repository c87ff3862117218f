import Mathlib.Data.Prod.Lex
import Mathlib.Order.WithBot
import Sharko.Script.XPath.Steps

/-! Document order, and that `docOrder` sorts by it. -/

namespace Sharko.Script.XPath
open Library Rose Address

namespace Document
variable (d : Document)

def wayDown (id : Option Address) : WithBot (List Nat) := id.map List.reverse

/-- The place of a node in document order: preorder for the tree, the attributes of an
element between it and its children. An attribute its element does not list any more
has the element's place; an orphaned one is alone in its tree. -/
def rank (n : Node) : WithBot (List Nat) ×ₗ Nat :=
  toLex (wayDown (d.item n).1,(d.item n).2)

structure Ordered (nodes : List Node) : Prop where
  nodup : nodes.Nodup
  sorted : nodes.Pairwise fun m n => d.rank m ≤ d.rank n

end Document

variable {d : Document}

theorem rank_tree {a b : Address} : d.rank (.tree a) < d.rank (.tree b) ↔ Before a b := by
  unfold Document.rank
  rw [Prod.Lex.toLex_lt_toLex]
  simp only [Document.item,lt_irrefl,and_false,or_false]
  exact WithBot.coe_lt_coe

theorem rank_tree_injective {a b : Address} (same : d.rank (.tree a) = d.rank (.tree b)) : a = b := by
  have way : Document.wayDown (some a) = Document.wayDown (some b) := congrArg (fun r => (ofLex r).1) same
  exact List.reverse_injective (WithBot.coe_injective way)

theorem first_difference (c : List Nat) {i j : Nat} (v w : List Nat) (apart : i ≠ j) :
    (((c ++ i :: v).zip (c ++ j :: w)).takeWhile fun p => p.1 == p.2).length = c.length := by
  induction c with
  | nil => simp [apart]
  | cons k c ih => simpa using ih

theorem compareDocumentPosition_branches {a b : Address} (branches : Branches a b) :
    Document.compareDocumentPosition a b = 4 ∧ Document.compareDocumentPosition b a = 2 := by
  obtain ⟨left,right⟩ := branches.apart
  have apart : a ≠ b := by
    rintro rfl
    exact before_irrefl a branches.before
  obtain ⟨v,w,c,i,j,rfl,rfl,less⟩ := branches
  have first := first_difference c.reverse v.reverse w.reverse less.ne
  have second := first_difference c.reverse w.reverse v.reverse less.ne'
  unfold Document.compareDocumentPosition
  constructor
  · rw [if_neg apart,if_neg (by simpa using right),if_neg (by simpa using left)]
    simp only [List.reverse_append,List.reverse_cons,List.append_assoc,List.singleton_append]
    simp only [first]
    simp [less.le]
  · rw [if_neg apart.symm,if_neg (by simpa using left),if_neg (by simpa using right)]
    simp only [List.reverse_append,List.reverse_cons,List.append_assoc,List.singleton_append]
    simp only [second]
    simp [less]

theorem compareDocumentPosition_following {a b : Address} (apart : a ≠ b) :
    (Document.compareDocumentPosition a b &&& 4 != 0 || Document.compareDocumentPosition a b &&& 2 == 0) =
      decide (a.reverse ≤ b.reverse) := by
  by_cases above : b <:+ a
  · obtain ⟨w,rfl⟩ := above
    have proper : w ≠ [] := by
      rintro rfl
      exact apart rfl
    have later : ¬ (w ++ b).reverse ≤ b.reverse := not_le_of_gt (before_below proper b)
    have bits : Document.compareDocumentPosition (w ++ b) b = 10 := by
      simp [Document.compareDocumentPosition,proper]
    rw [bits,decide_eq_false later]
    rfl
  · by_cases below : a <:+ b
    · have before : a.reverse ≤ b.reverse := by
        obtain ⟨w,rfl⟩ := below
        have proper : w ≠ [] := by
          rintro rfl
          exact apart rfl
        exact le_of_lt (before_below proper a)
      have bits : Document.compareDocumentPosition a b = 20 := by
        simp [Document.compareDocumentPosition,apart,above,below]
      rw [bits,decide_eq_true before]
      rfl
    · rcases Address.cases a b with h | h | h | h
      · exact absurd h below
      · exact absurd h above
      · rw [(compareDocumentPosition_branches h).1,decide_eq_true (le_of_lt h.before)]
        rfl
      · rw [(compareDocumentPosition_branches h).2,decide_eq_false (not_le_of_gt h.before)]
        rfl

theorem wayDown_lt {a b : Address} :
    Document.wayDown (some a) < Document.wayDown (some b) ↔ a.reverse < b.reverse := WithBot.coe_lt_coe

theorem inOrder_eq (m n : Node) : d.inOrder m n = decide (d.rank m ≤ d.rank n) := by
  rw [Bool.eq_iff_iff,decide_eq_true_iff]
  unfold Document.rank
  rw [Prod.Lex.toLex_le_toLex]
  unfold Document.inOrder
  generalize d.item m = a
  generalize d.item n = b
  obtain ⟨x,i⟩ := a
  obtain ⟨y,j⟩ := b
  by_cases same : x = y
  · subst same
    simp
  · have places : Document.wayDown x ≠ Document.wayDown y := by
      intro equal
      exact same (Option.map_injective List.reverse_injective equal)
    simp only [same,places,if_false,false_and,or_false]
    cases x with
    | none =>
      cases y with
      | none => exact absurd rfl same
      | some b => exact iff_of_true rfl (WithBot.bot_lt_coe b.reverse)
    | some a =>
      cases y with
      | none => exact iff_of_false (by simp) not_lt_bot
      | some b =>
        have apart : a ≠ b := fun equal => same (congrArg some equal)
        have other : a.reverse ≠ b.reverse := fun equal => apart (List.reverse_injective equal)
        simp only [compareDocumentPosition_following apart,decide_eq_true_iff]
        exact (le_iff_lt_or_eq.trans (or_iff_left other)).trans wayDown_lt.symm

theorem eraseDups_nodup (nodes : List Node) : nodes.eraseDups.Nodup := by
  induction h : nodes.length using Nat.strongRecOn generalizing nodes with
  | ind n ih =>
    cases nodes with
    | nil => simp
    | cons a rest =>
      rw [List.eraseDups_cons]
      have shorter : (rest.filter fun b => !b == a).length < n := by
        rw [← h]
        exact Nat.lt_succ_of_le (List.length_filter_le _ _)
      refine List.nodup_cons.mpr ⟨?_,ih _ shorter _ rfl⟩
      simp [List.mem_eraseDups]

theorem eraseDups_of_nodup {nodes : List Node} (distinct : nodes.Nodup) : nodes.eraseDups = nodes := by
  induction nodes with
  | nil => rfl
  | cons a rest ih =>
    obtain ⟨absent,later⟩ := List.nodup_cons.mp distinct
    have kept : (rest.filter fun b => !b == a) = rest := by
      refine List.filter_eq_self.mpr fun b inside => ?_
      have other : b ≠ a := fun same => absent (same ▸ inside)
      simp [other]
    rw [List.eraseDups_cons,kept,ih later]

theorem inOrder_trans (a b c : Node) (first : d.inOrder a b = true) (second : d.inOrder b c = true) :
    d.inOrder a c = true := by
  rw [inOrder_eq,decide_eq_true_iff] at first second ⊢
  exact le_trans first second

theorem inOrder_total (a b : Node) : (d.inOrder a b || d.inOrder b a) = true := by
  rw [inOrder_eq,inOrder_eq,Bool.or_eq_true,decide_eq_true_iff,decide_eq_true_iff]
  exact le_total _ _

theorem ordered_short {nodes : List Node} (short : nodes.length < 2) : d.Ordered nodes := by
  cases nodes with
  | nil => exact ⟨List.nodup_nil,List.Pairwise.nil⟩
  | cons n rest =>
    have alone : rest = [] := List.eq_nil_of_length_eq_zero (Nat.lt_one_iff.mp (Nat.lt_of_succ_lt_succ short))
    rw [alone]
    exact ⟨by simp,List.pairwise_singleton _ n⟩

theorem mem_docOrder {nodes : List Node} {n : Node} : n ∈ d.docOrder nodes ↔ n ∈ nodes := by
  unfold Document.docOrder
  dsimp only
  split_ifs
  · exact Iff.rfl
  · exact List.mem_eraseDups
  · rw [List.mem_mergeSort]
    exact List.mem_eraseDups

theorem docOrder_ordered (nodes : List Node) : d.Ordered (d.docOrder nodes) := by
  unfold Document.docOrder
  dsimp only
  split_ifs with short short'
  · exact ordered_short short
  · exact ordered_short short'
  · refine ⟨(List.mergeSort_perm _ _).nodup_iff.mpr (eraseDups_nodup nodes),?_⟩
    refine (List.pairwise_mergeSort inOrder_trans inOrder_total nodes.eraseDups).imp ?_
    intro m n inOrder
    rwa [inOrder_eq,decide_eq_true_iff] at inOrder

theorem docOrder_of_ordered {nodes : List Node} (ordered : d.Ordered nodes) : d.docOrder nodes = nodes := by
  unfold Document.docOrder
  rw [eraseDups_of_nodup ordered.nodup]
  dsimp only
  split_ifs
  · rfl
  · apply List.mergeSort_of_pairwise
    refine ordered.sorted.imp ?_
    intro m n before
    rwa [inOrder_eq,decide_eq_true_iff]

theorem Document.Ordered.sublist {nodes out : List Node} (ordered : d.Ordered nodes)
    (part : out.Sublist nodes) : d.Ordered out :=
  ⟨part.nodup ordered.nodup,ordered.sorted.sublist part⟩

theorem ordered_of_rising {nodes : List Node} (rising : nodes.Pairwise fun m n => d.rank m < d.rank n) :
    d.Ordered nodes :=
  ⟨rising.imp (fun less same => less.ne (congrArg d.rank same)),rising.imp le_of_lt⟩

theorem tree_ordered {ids : List Address} (rising : ids.Pairwise Before) : d.Ordered (ids.map Node.tree) :=
  ordered_of_rising (List.pairwise_map.mpr (rising.imp rank_tree.mpr))

theorem tree_falling {ids : List Address} (falling : ids.Pairwise fun a b => Before b a) :
    d.Ordered (ids.map Node.tree).reverse := by
  rw [← List.map_reverse]
  exact tree_ordered (List.pairwise_reverse.mpr falling)

end Sharko.Script.XPath
