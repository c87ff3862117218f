import Mathlib.Data.List.Nodup
import Sharko.Library.Forest

/-! The ancestors of a node in a forest, and what is below each of them. -/

namespace Sharko.Library.Forest

variable {α : Type*}

def roots : Forest α → List α
  | nil => []
  | cons a _ n => a :: n.roots

theorem roots_subset {f : Forest α} {a : α} (root : a ∈ f.roots) : a ∈ f.nodes := by
  induction f with
  | nil => cases root
  | cons r c n ihc ihn =>
    rcases List.mem_cons.mp root with rfl | later
    · exact List.mem_cons_self
    · exact List.mem_cons_of_mem _ (List.mem_append_right _ (ihn later))

theorem nodup_parts {a : α} {c n : Forest α} (nodup : (cons a c n).nodes.Nodup) :
    a ∉ c.nodes ∧ a ∉ n.nodes ∧ c.nodes.Nodup ∧ n.nodes.Nodup ∧ ∀ x ∈ c.nodes,x ∉ n.nodes := by
  rw [nodes_cons,List.nodup_cons,List.mem_append,not_or] at nodup
  obtain ⟨⟨outC,outN⟩,rest⟩ := nodup
  exact ⟨outC,outN,rest.of_append_left,rest.of_append_right,
    fun x here there => (List.disjoint_of_nodup_append rest) here there⟩

variable [DecidableEq α] {f : Forest α} {a b p x : α}

theorem children_cons (r : α) (c n : Forest α) (a : α) :
    (cons r c n).children a = if r = a then c else if a ∈ c.nodes then c.children a else n.children a :=
  rfl

theorem children_sublist (a : α) (f : Forest α) : (f.children a).nodes.Sublist f.nodes := by
  induction f with
  | nil => exact List.Sublist.refl _
  | cons r c n ihc ihn =>
    unfold children
    rw [nodes_cons]
    refine List.Sublist.cons r ?_
    split
    · exact List.sublist_append_left ..
    split
    · exact ihc.trans (List.sublist_append_left ..)
    · exact ihn.trans (List.sublist_append_right ..)

theorem ancestors_of_not_mem (outside : a ∉ f.nodes) : f.ancestors a = [] := by
  induction f with
  | nil => rfl
  | cons r c n ihc ihn =>
    simp only [nodes_cons,List.mem_cons,List.mem_append,not_or] at outside
    rw [ancestors,if_neg (Ne.symm outside.1),if_neg outside.2.1,ihn outside.2.2]

section nodup

variable {c n : Forest α}

theorem ancestors_self (c n : Forest α) (a : α) : (cons a c n).ancestors a = [] := by
  rw [ancestors,if_pos rfl]

theorem ancestors_below (nodup : (cons a c n).nodes.Nodup) (below : x ∈ c.nodes) :
    (cons a c n).ancestors x = c.ancestors x ++ [a] := by
  have other : a ≠ x := fun same => (nodup_parts nodup).1 (same ▸ below)
  rw [ancestors,if_neg other,if_pos below]

theorem ancestors_behind (nodup : (cons a c n).nodes.Nodup) (behind : x ∈ n.nodes) :
    (cons a c n).ancestors x = n.ancestors x := by
  obtain ⟨-,outN,-,-,disjoint⟩ := nodup_parts nodup
  have other : a ≠ x := fun same => outN (same ▸ behind)
  rw [ancestors,if_neg other,if_neg fun below => disjoint x below behind]

end nodup

theorem mem_children_iff (nodup : f.nodes.Nodup) (inside : x ∈ f.nodes) :
    x ∈ (f.children a).nodes ↔ a ∈ f.ancestors x := by
  induction f with
  | nil => cases inside
  | cons r c n ihc ihn =>
    obtain ⟨outC,outN,nodupC,nodupN,disjoint⟩ := nodup_parts nodup
    rw [nodes_cons,List.mem_cons,List.mem_append] at inside
    rcases inside with rfl | below | behind
    · rw [ancestors_self]
      refine iff_of_false (fun there => ?_) List.not_mem_nil
      rw [children_cons] at there
      split at there
      · exact outC there
      split at there
      · exact outC ((children_sublist a c).subset there)
      · exact outN ((children_sublist a n).subset there)
    · rw [ancestors_below nodup below,List.mem_append,List.mem_singleton,children_cons,← ihc nodupC below]
      split
      · rename_i same
        exact iff_of_true below (.inr same.symm)
      rename_i other
      have other' : ¬a = r := Ne.symm other
      split
      · simp [other']
      · rename_i outside
        refine iff_of_false (fun there => disjoint x below ((children_sublist a n).subset there)) ?_
        rintro (there | same)
        · refine outside ?_
          have above := (ihc nodupC below).mp there
          exact ancestors_subset above
        · exact other' same
    · rw [ancestors_behind nodup behind,children_cons,← ihn nodupN behind]
      split
      · rename_i same
        refine iff_of_false (fun below => disjoint x below behind) fun there => ?_
        exact outN (same ▸ ancestors_subset ((ihn nodupN behind).mp there))
      split
      · rename_i other inside
        refine iff_of_false (fun there => ?_) fun there => ?_
        · exact disjoint x ((children_sublist a c).subset there) behind
        · exact disjoint a inside (ancestors_subset ((ihn nodupN behind).mp there))
      · exact Iff.rfl

theorem ancestors_append (nodup : f.nodes.Nodup) {front rest : List α}
    (split : f.ancestors x = front ++ p :: rest) : f.ancestors p = rest := by
  induction f generalizing front rest with
  | nil => simp [ancestors] at split
  | cons r c n ihc ihn =>
    obtain ⟨outC,outN,nodupC,nodupN,disjoint⟩ := nodup_parts nodup
    have inside : x ∈ (cons r c n).nodes := by
      by_contra outside
      rw [ancestors_of_not_mem outside] at split
      simp at split
    rw [nodes_cons,List.mem_cons,List.mem_append] at inside
    rcases inside with rfl | below | behind
    · rw [ancestors_self] at split
      simp at split
    · rw [ancestors_below nodup below] at split
      rcases rest.eq_nil_or_concat with rfl | ⟨rest,r',rfl⟩
      · have last : r = p := by
          have := congrArg List.getLast? split
          simpa using this
        rw [← last,ancestors_self]
      · rw [List.concat_eq_append,← List.cons_append,← List.append_assoc] at split
        obtain ⟨inner,last⟩ := List.append_inj' split rfl
        have up := ihc nodupC inner
        have there : p ∈ c.nodes := ancestors_subset (a := x) (by rw [inner]; simp)
        rw [ancestors_below nodup there,up,List.concat_eq_append,last]
    · rw [ancestors_behind nodup behind] at split
      have there : p ∈ n.nodes := ancestors_subset (by rw [split]; simp)
      rw [ancestors_behind nodup there]
      exact ihn nodupN split

theorem ancestors_parent (nodup : f.nodes.Nodup) {rest : List α} (chain : f.ancestors x = p :: rest) :
    f.ancestors p = rest :=
  ancestors_append nodup (List.nil_append _ ▸ chain : f.ancestors x = [] ++ p :: rest)

theorem ancestors_nodup (nodup : f.nodes.Nodup) (x : α) : (x :: f.ancestors x).Nodup := by
  induction f with
  | nil => simp [ancestors]
  | cons r c n ihc ihn =>
    obtain ⟨outC,outN,nodupC,nodupN,disjoint⟩ := nodup_parts nodup
    by_cases inside : x ∈ (cons r c n).nodes
    · rw [nodes_cons,List.mem_cons,List.mem_append] at inside
      rcases inside with rfl | below | behind
      · simp [ancestors_self]
      · rw [ancestors_below nodup below,← List.cons_append]
        refine List.Nodup.append (ihc nodupC) (List.nodup_singleton r) fun y here last => ?_
        obtain rfl := List.mem_singleton.mp last
        rcases List.mem_cons.mp here with rfl | above
        · exact outC below
        · exact outC (ancestors_subset above)
      · rw [ancestors_behind nodup behind]
        exact ihn nodupN
    · simp [ancestors_of_not_mem inside]

theorem ancestors_of_root (nodup : f.nodes.Nodup) (child : x ∈ (f.children p).roots) :
    f.ancestors x = p :: f.ancestors p := by
  induction f with
  | nil => cases child
  | cons r c n ihc ihn =>
    obtain ⟨outC,outN,nodupC,nodupN,disjoint⟩ := nodup_parts nodup
    rw [children_cons] at child
    split at child
    · rename_i same
      subst same
      rw [ancestors_below nodup (roots_subset child),ancestors_self]
      have top (g : Forest α) (nodup : g.nodes.Nodup) (root : x ∈ g.roots) : g.ancestors x = [] := by
        induction g with
        | nil => rfl
        | cons r c n ihc ihn =>
          obtain ⟨-,-,-,nodupN,-⟩ := nodup_parts nodup
          rcases List.mem_cons.mp root with rfl | later
          · exact ancestors_self ..
          · rw [ancestors_behind nodup (roots_subset later),ihn nodupN later]
      rw [top c nodupC child]
      rfl
    split at child
    · rename_i inside
      have below := (children_sublist p c).subset (roots_subset child)
      rw [ancestors_below nodup below,ancestors_below nodup inside,ihc nodupC child]
      rfl
    · have behind := (children_sublist p n).subset (roots_subset child)
      have there : p ∈ n.nodes := ancestors_subset (by rw [ihn nodupN child]; simp)
      rw [ancestors_behind nodup behind,ancestors_behind nodup there,ihn nodupN child]

end Sharko.Library.Forest
