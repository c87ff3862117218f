import Mathlib
import Sharko.Library.Contraction

/-! Trees put in below a node of a forest and the children of a node set free, with what that does
to ancestors and to lists of children. -/

namespace Sharko.Library.Forest

variable {α : Type*}

def splice : Forest α → ℕ → Forest α → Forest α
  | cons r c n,i + 1,sub => cons r c (n.splice i sub)
  | f,_,sub => sub.append f

theorem splice_split (f : Forest α) (i : ℕ) (sub : Forest α) :
    ∃ g h : Forest α, f = g.append h ∧ f.splice i sub = g.append (sub.append h) ∧ g.roots = f.roots.take i := by
  induction f generalizing i with
  | nil => cases i <;> exact ⟨nil,nil,rfl,rfl,rfl⟩
  | cons r c n _ ihn =>
    cases i with
    | zero => exact ⟨nil,cons r c n,rfl,rfl,rfl⟩
    | succ i =>
      obtain ⟨g,h,whole,spliced,front⟩ := ihn i
      refine ⟨cons r c g,h,?_,?_,?_⟩
      · rw [append,← whole]
      · rw [splice,append,spliced]
      · rw [roots,roots,List.take_succ_cons,front]

theorem splice_perm (f : Forest α) (i : ℕ) (sub : Forest α) :
    (f.splice i sub).nodes.Perm (f.nodes ++ sub.nodes) := by
  obtain ⟨g,h,whole,spliced,-⟩ := splice_split f i sub
  rw [spliced,whole,nodes_append,nodes_append,nodes_append,List.append_assoc]
  exact List.perm_append_comm.append_left _

variable [DecidableEq α] {f sub : Forest α} {a p q x : α} {i : ℕ}

def graft (p : α) (i : ℕ) : Forest α → Forest α → Forest α
  | nil,_ => nil
  | cons r c n,sub =>
    if r = p then cons r (c.splice i sub) n
    else if p ∈ c.nodes then cons r (c.graft p i sub) n
    else cons r c (n.graft p i sub)

def clear (a : α) : Forest α → Forest α
  | nil => nil
  | cons r c n =>
    if r = a then cons r nil n else if a ∈ c.nodes then cons r (c.clear a) n else cons r c (n.clear a)

theorem children_of_not_mem (outside : q ∉ f.nodes) : f.children q = nil := by
  induction f with
  | nil => rfl
  | cons r c n ihc ihn =>
    simp only [nodes_cons,List.mem_cons,List.mem_append,not_or] at outside
    rw [children_cons,if_neg (Ne.symm outside.1),if_neg outside.2.1,ihn outside.2.2]

theorem graft_perm (inside : p ∈ f.nodes) : (f.graft p i sub).nodes.Perm (f.nodes ++ sub.nodes) := by
  induction f with
  | nil => cases inside
  | cons r c n ihc ihn =>
    rw [graft,nodes_cons]
    have swap : ∀ l m k : List α, ((l ++ m) ++ k).Perm ((l ++ k) ++ m) := by
      intro l m k
      rw [List.append_assoc,List.append_assoc]
      exact List.perm_append_comm.append_left l
    split
    next =>
      rw [nodes_cons,List.cons_append]
      exact (((splice_perm c i sub).append_right _).trans (swap ..)).cons r
    next other =>
      split
      next below =>
        rw [nodes_cons,List.cons_append]
        exact (((ihc below).append_right _).trans (swap ..)).cons r
      next outside =>
        have behind : p ∈ n.nodes := by simpa [Ne.symm other,outside] using inside
        rw [nodes_cons,List.cons_append,List.append_assoc]
        exact ((ihn behind).append_left _).cons r

theorem clear_perm (inside : a ∈ f.nodes) : f.nodes.Perm ((f.children a).nodes ++ (f.clear a).nodes) := by
  induction f with
  | nil => cases inside
  | cons r c n ihc ihn =>
    rw [clear,children_cons,nodes_cons]
    split
    next same =>
      rw [nodes_cons,nodes_nil,List.nil_append]
      exact List.perm_middle.symm
    next other =>
      split
      next below =>
        rw [nodes_cons]
        refine List.Perm.trans ?_ List.perm_middle.symm
        rw [← List.append_assoc]
        exact ((ihc below).append_right _).cons r
      next outside =>
        have behind : a ∈ n.nodes := by simpa [Ne.symm other,outside] using inside
        rw [nodes_cons]
        refine List.Perm.trans ?_ List.perm_middle.symm
        refine List.Perm.cons r ?_
        refine ((ihn behind).append_left _).trans ?_
        rw [← List.append_assoc,← List.append_assoc]
        exact List.perm_append_comm.append_right _

theorem clear_subset (inside : a ∈ f.nodes) (there : x ∈ (f.clear a).nodes) : x ∈ f.nodes :=
  (clear_perm inside).mem_iff.mpr (List.mem_append_right _ there)

theorem roots_graft (f : Forest α) (p : α) (i : ℕ) (sub : Forest α) : (f.graft p i sub).roots = f.roots := by
  induction f with
  | nil => rfl
  | cons r c n ihc ihn =>
    rw [graft]
    split
    · rfl
    split
    · rfl
    · rw [roots,roots,ihn]

theorem roots_clear (f : Forest α) (a : α) : (f.clear a).roots = f.roots := by
  induction f with
  | nil => rfl
  | cons r c n ihc ihn =>
    rw [clear]
    split
    · rfl
    split
    · rfl
    · rw [roots,roots,ihn]

theorem roots_without (below : a ∉ f.roots) : (f.without a).roots = f.roots := by
  induction f with
  | nil => rfl
  | cons r c n ihc ihn =>
    rw [roots,List.mem_cons,not_or] at below
    rw [without,if_neg (Ne.symm below.1)]
    split
    · rfl
    · rw [roots,roots,ihn below.2]

section splicing

theorem ancestors_splice (f : Forest α) (i : ℕ) (apart : ∀ x ∈ sub.nodes, x ∉ f.nodes) :
    (f.splice i sub).ancestors x = if x ∈ sub.nodes then sub.ancestors x else f.ancestors x := by
  obtain ⟨g,h,whole,spliced,-⟩ := splice_split f i sub
  rw [spliced,ancestors_appended,ancestors_appended]
  by_cases new : x ∈ sub.nodes
  · have away := apart x new
    rw [whole,nodes_append,List.mem_append,not_or] at away
    rw [if_neg away.1,if_pos new,if_pos new]
  · rw [if_neg new,if_neg new,whole,ancestors_appended]

theorem children_splice (f : Forest α) (i : ℕ) (apart : ∀ x ∈ sub.nodes, x ∉ f.nodes) :
    (f.splice i sub).children x = if x ∈ sub.nodes then sub.children x else f.children x := by
  obtain ⟨g,h,whole,spliced,-⟩ := splice_split f i sub
  rw [spliced,children_append,children_append]
  by_cases new : x ∈ sub.nodes
  · have away := apart x new
    rw [whole,nodes_append,List.mem_append,not_or] at away
    rw [if_neg away.1,if_pos new,if_pos new]
  · rw [if_neg new,if_neg new,whole,children_append]

end splicing

section nodup

variable (nodup : f.nodes.Nodup) (inside : p ∈ f.nodes) (apart : ∀ x ∈ sub.nodes, x ∉ f.nodes)
include nodup inside apart

theorem ancestors_graft_new (there : x ∈ sub.nodes) :
    (f.graft p i sub).ancestors x = sub.ancestors x ++ p :: f.ancestors p := by
  have away := apart x there
  induction f, nodup, inside using node_induction with
  | here c n nodup inside =>
    have apartC : ∀ y ∈ sub.nodes, y ∉ c.nodes := fun y new below => apart y new (by simp [below])
    have below : x ∈ (c.splice i sub).nodes :=
      (splice_perm c i sub).mem_iff.mpr (List.mem_append_right _ there)
    simp only [nodes_cons,List.mem_cons,not_or] at away
    rw [graft,if_pos rfl,ancestors,if_neg (Ne.symm away.1),if_pos below,
      ancestors_splice c i apartC,if_pos there,ancestors_self]
  | below r c n nodup inside nodupC insideC other ih =>
    have apartC : ∀ y ∈ sub.nodes, y ∉ c.nodes := fun y new below => apart y new (by simp [below])
    have below : x ∈ (c.graft p i sub).nodes :=
      (graft_perm insideC).mem_iff.mpr (List.mem_append_right _ there)
    simp only [nodes_cons,List.mem_cons,not_or] at away
    rw [graft,if_neg other,if_pos insideC,ancestors,if_neg (Ne.symm away.1),if_pos below,
      ancestors_below nodup insideC,ih apartC (apartC x there),List.append_assoc]
    rfl
  | behind r c n nodup inside nodupN insideN other outside ih =>
    have apartN : ∀ y ∈ sub.nodes, y ∉ n.nodes := fun y new behind => apart y new (by simp [behind])
    simp only [nodes_cons,List.mem_cons,List.mem_append,not_or] at away
    rw [graft,if_neg other,if_neg outside,ancestors,if_neg (Ne.symm away.1),if_neg away.2.1,
      ancestors_behind nodup insideN,ih apartN away.2.2]

theorem ancestors_graft_old (there : x ∈ f.nodes) : (f.graft p i sub).ancestors x = f.ancestors x := by
  induction f, nodup, inside using node_induction with
  | here c n nodup inside =>
    have apartC : ∀ y ∈ sub.nodes, y ∉ c.nodes := fun y new below => apart y new (by simp [below])
    have old : x ∉ sub.nodes := fun new => apart x new there
    have same : x ∈ (c.splice i sub).nodes ↔ x ∈ c.nodes := by
      rw [(splice_perm c i sub).mem_iff,List.mem_append]
      simp [old]
    rw [graft,if_pos rfl,ancestors,ancestors,ancestors_splice c i apartC,if_neg old]
    simp only [same]
  | below r c n nodup inside nodupC insideC other ih =>
    have apartC : ∀ y ∈ sub.nodes, y ∉ c.nodes := fun y new below => apart y new (by simp [below])
    have old : x ∉ sub.nodes := fun new => apart x new there
    have same : x ∈ (c.graft p i sub).nodes ↔ x ∈ c.nodes := by
      rw [(graft_perm insideC).mem_iff,List.mem_append]
      simp [old]
    rw [graft,if_neg other,if_pos insideC,ancestors,ancestors]
    simp only [same]
    by_cases below : x ∈ c.nodes
    · rw [ih apartC below]
    · simp only [below,if_false]
  | behind r c n nodup inside nodupN insideN other outside ih =>
    have apartN : ∀ y ∈ sub.nodes, y ∉ n.nodes := fun y new behind => apart y new (by simp [behind])
    rw [graft,if_neg other,if_neg outside,ancestors,ancestors]
    by_cases head : r = x
    · simp [head]
    by_cases below : x ∈ c.nodes
    · simp [head,below]
    · have behind : x ∈ n.nodes := by simpa [Ne.symm head,below] using there
      simp only [head,below,if_false]
      exact ih apartN behind

theorem roots_children_graft (q : α) : ((f.graft p i sub).children q).roots =
      if q ∈ sub.nodes then (sub.children q).roots
      else if q = p then ((f.children p).splice i sub).roots
      else (f.children q).roots := by
  induction f, nodup, inside using node_induction with
  | here c n nodup inside =>
    have apartC : ∀ y ∈ sub.nodes, y ∉ c.nodes := fun y new below => apart y new (by simp [below])
    have notP : p ∉ sub.nodes := fun new => apart p new List.mem_cons_self
    rw [graft,if_pos rfl,children_cons,children_cons,children_cons,if_pos rfl]
    by_cases same : p = q
    · subst same
      rw [if_pos rfl,if_neg notP,if_pos rfl]
    · have mem : q ∈ (c.splice i sub).nodes ↔ q ∈ c.nodes ∨ q ∈ sub.nodes := by
        rw [(splice_perm c i sub).mem_iff,List.mem_append]
      rw [if_neg same,if_neg same,if_neg (Ne.symm same),children_splice c i apartC]
      by_cases new : q ∈ sub.nodes
      · rw [if_pos (mem.mpr (.inr new)),if_pos new,if_pos new]
      · rw [if_neg new,if_neg new]
        simp only [mem,new,or_false]
  | below r c n nodup inside nodupC insideC other ih =>
    have apartC : ∀ y ∈ sub.nodes, y ∉ c.nodes := fun y new below => apart y new (by simp [below])
    have notR : r ∉ sub.nodes := fun new => apart r new List.mem_cons_self
    rw [children_below nodup insideC,graft,if_neg other,if_pos insideC,children_cons,children_cons]
    by_cases same : r = q
    · subst same
      rw [if_pos rfl,if_neg notR,if_neg other,if_pos rfl,roots_graft]
    · have mem : q ∈ (c.graft p i sub).nodes ↔ q ∈ c.nodes ∨ q ∈ sub.nodes := by
        rw [(graft_perm insideC).mem_iff,List.mem_append]
      rw [if_neg same,if_neg same]
      by_cases there : q ∈ c.nodes ∨ q ∈ sub.nodes
      · rw [if_pos (mem.mpr there),ih apartC]
        by_cases new : q ∈ sub.nodes
        · rw [if_pos new,if_pos new]
        · rw [if_neg new,if_neg new,if_pos (there.resolve_right new)]
      · rw [not_or] at there
        have away : q ≠ p := fun same => there.1 (same ▸ insideC)
        rw [if_neg (mt mem.mp (not_or.mpr there)),if_neg there.2,if_neg away,if_neg there.1]
  | behind r c n nodup inside nodupN insideN other outside ih =>
    have apartN : ∀ y ∈ sub.nodes, y ∉ n.nodes := fun y new behind => apart y new (by simp [behind])
    have notR : r ∉ sub.nodes := fun new => apart r new List.mem_cons_self
    rw [children_behind nodup insideN,graft,if_neg other,if_neg outside,children_cons,children_cons]
    by_cases same : r = q
    · subst same
      rw [if_pos rfl,if_neg notR,if_neg other,if_pos rfl]
    rw [if_neg same,if_neg same]
    by_cases below : q ∈ c.nodes
    · have old : q ∉ sub.nodes := fun new => apart q new (by simp [below])
      have away : q ≠ p := fun same => outside (same ▸ below)
      rw [if_pos below,if_neg old,if_neg away,if_pos below]
    · rw [if_neg below,if_neg below,ih apartN]

end nodup

section clearing

variable (nodup : f.nodes.Nodup) (inside : a ∈ f.nodes)
include nodup inside

theorem ancestors_clear (there : x ∈ (f.clear a).nodes) : (f.clear a).ancestors x = f.ancestors x := by
  induction f, nodup, inside using node_induction with
  | here c n nodup inside =>
    rw [clear,if_pos rfl,nodes_cons,nodes_nil,List.nil_append] at there
    rw [clear,if_pos rfl]
    rcases List.mem_cons.mp there with rfl | behind
    · rw [ancestors_self,ancestors_self]
    · rw [ancestors_behind nodup behind,ancestors]
      split
      · rw [← ‹a = x›] at behind
        exact absurd behind (nodup_parts nodup).2.1
      · rfl
  | below r c n nodup inside nodupC insideC other ih =>
    rw [clear,if_neg other,if_pos insideC] at there ⊢
    rw [ancestors,ancestors]
    by_cases head : r = x
    · rw [if_pos head,if_pos head]
    rw [if_neg head,if_neg head]
    by_cases below : x ∈ (c.clear a).nodes
    · rw [if_pos below,if_pos (clear_subset insideC below),ih below]
    · have behind : x ∈ n.nodes := by simpa [Ne.symm head,below] using there
      have outside : x ∉ c.nodes := fun here => (nodup_parts nodup).2.2.2.2 x here behind
      rw [if_neg below,if_neg outside]
  | behind r c n nodup inside nodupN insideN other outside ih =>
    rw [clear,if_neg other,if_neg outside] at there ⊢
    rw [ancestors,ancestors]
    by_cases head : r = x
    · rw [if_pos head,if_pos head]
    rw [if_neg head,if_neg head]
    by_cases below : x ∈ c.nodes
    · rw [if_pos below,if_pos below]
    · have behind : x ∈ (n.clear a).nodes := by simpa [Ne.symm head,below] using there
      rw [if_neg below,if_neg below,ih behind]

theorem roots_children_clear (other : a ≠ q) (there : q ∉ (f.children a).nodes) :
    ((f.clear a).children q).roots = (f.children q).roots := by
  induction f, nodup, inside using node_induction with
  | here c n nodup inside =>
    rw [children_cons,if_pos rfl] at there
    rw [clear,if_pos rfl,children_cons,children_cons,if_neg other,if_neg other,if_neg there,nodes_nil,
      if_neg List.not_mem_nil]
  | below r c n nodup inside nodupC insideC away ih =>
    rw [children_below nodup insideC] at there
    have same : q ∈ (c.clear a).nodes ↔ q ∈ c.nodes := by
      rw [(clear_perm insideC).mem_iff,List.mem_append]
      simp only [there,false_or]
    rw [clear,if_neg away,if_pos insideC,children_cons,children_cons]
    simp only [same]
    by_cases head : r = q
    · rw [if_pos head,if_pos head,roots_clear]
    rw [if_neg head,if_neg head]
    by_cases below : q ∈ c.nodes
    · rw [if_pos below,if_pos below,ih there]
    · rw [if_neg below,if_neg below]
  | behind r c n nodup inside nodupN insideN away outside ih =>
    rw [children_behind nodup insideN] at there
    rw [clear,if_neg away,if_neg outside,children_cons,children_cons]
    by_cases head : r = q
    · rw [if_pos head,if_pos head]
    rw [if_neg head,if_neg head]
    by_cases below : q ∈ c.nodes
    · rw [if_pos below,if_pos below]
    · rw [if_neg below,if_neg below,ih there]

theorem ancestors_without (there : x ∈ (f.without a).nodes) : (f.without a).ancestors x = f.ancestors x := by
  induction f, nodup, inside using node_induction with
  | here c n nodup inside =>
    rw [without,if_pos rfl] at there ⊢
    rw [ancestors_behind nodup there]
  | below r c n nodup inside nodupC insideC other ih =>
    rw [without,if_neg other,if_pos insideC] at there ⊢
    rw [ancestors,ancestors]
    by_cases head : r = x
    · rw [if_pos head,if_pos head]
    rw [if_neg head,if_neg head]
    by_cases below : x ∈ (c.without a).nodes
    · rw [if_pos below,if_pos ((mem_without nodupC insideC).mp below).1,ih below]
    · have behind : x ∈ n.nodes := by simpa [Ne.symm head,below] using there
      have outside : x ∉ c.nodes := fun here => (nodup_parts nodup).2.2.2.2 x here behind
      rw [if_neg below,if_neg outside]
  | behind r c n nodup inside nodupN insideN other outside ih =>
    rw [without,if_neg other,if_neg outside] at there ⊢
    rw [ancestors,ancestors]
    by_cases head : r = x
    · rw [if_pos head,if_pos head]
    rw [if_neg head,if_neg head]
    by_cases below : x ∈ c.nodes
    · rw [if_pos below,if_pos below]
    · have behind : x ∈ (n.without a).nodes := by simpa [Ne.symm head,below] using there
      rw [if_neg below,if_neg below,ih behind]

end clearing

end Sharko.Library.Forest
