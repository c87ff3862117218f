import Mathlib.Data.List.Nodup
import Mathlib.Data.List.Perm.Basic

/-! Ordered forests as first child and next sibling: the trees at the top, the ancestors of a node and
the subtree below it, and the moves of a subtree from one place to another. -/

namespace Sharko.Library

inductive Forest (α : Type*) where
  | nil
  | cons (a : α) (children next : Forest α)

namespace Forest

variable {α β : Type*}

def nodes : Forest α → List α
  | nil => []
  | cons a c n => a :: (c.nodes ++ n.nodes)

@[simp] theorem nodes_nil : (nil : Forest α).nodes = [] := rfl

@[simp] theorem nodes_cons (a : α) (c n : Forest α) : (cons a c n).nodes = a :: (c.nodes ++ n.nodes) := rfl

def map (g : α → β) : Forest α → Forest β
  | nil => nil
  | cons a c n => cons (g a) (c.map g) (n.map g)

@[simp] theorem nodes_map (g : α → β) (f : Forest α) : (f.map g).nodes = f.nodes.map g := by
  induction f with
  | nil => rfl
  | cons a c n ihc ihn => simp [map,ihc,ihn]

def place (a : α) : ℕ → Forest α → Forest α → Forest α
  | i + 1,cons r c n,s => cons r c (n.place a i s)
  | _,f,s => cons a s f

def shown (leaf : α → Bool) : Forest α → Forest α
  | nil => nil
  | cons a c n => cons a (if leaf a then nil else c.shown leaf) (n.shown leaf)

theorem shown_sublist (leaf : α → Bool) (f : Forest α) : (f.shown leaf).nodes.Sublist f.nodes := by
  induction f with
  | nil => exact List.Sublist.refl _
  | cons a c n ihc ihn =>
    rw [shown,nodes_cons,nodes_cons]
    refine List.Sublist.cons_cons a (List.Sublist.append ?_ ihn)
    split
    · exact List.nil_sublist _
    · exact ihc

def Leaves (leaf : α → Bool) : Forest α → Prop
  | nil => True
  | cons a c n => (leaf a = true → c = nil) ∧ c.Leaves leaf ∧ n.Leaves leaf

theorem leaves_congr {leaf leaf' : α → Bool} {f : Forest α} (leaves : f.Leaves leaf)
    (same : ∀ a ∈ f.nodes,leaf' a = leaf a) : f.Leaves leaf' := by
  induction f with
  | nil => trivial
  | cons a c n ihc ihn =>
    obtain ⟨none,below,behind⟩ := leaves
    simp only [nodes_cons,List.mem_cons,List.mem_append] at same
    exact ⟨fun here => none ((same a (.inl rfl)).symm.trans here),
      ihc below fun x member => same x (.inr (.inl member)),
      ihn behind fun x member => same x (.inr (.inr member))⟩

theorem shown_of_leaves {leaf : α → Bool} {f : Forest α} (leaves : f.Leaves leaf) : f.shown leaf = f := by
  induction f with
  | nil => rfl
  | cons a c n ihc ihn =>
    obtain ⟨none,below,behind⟩ := leaves
    rw [shown,ihc below,ihn behind]
    split
    · rename_i here
      rw [none here]
    · rfl

theorem place_leaves {leaf : α → Bool} {a : α} {s : Forest α} (alone : leaf a = true → s = nil)
    (inside : s.Leaves leaf) {f : Forest α} (leaves : f.Leaves leaf) (i : ℕ) : (f.place a i s).Leaves leaf := by
  induction f generalizing i with
  | nil => cases i <;> exact ⟨alone,inside,trivial⟩
  | cons r c n ihc ihn =>
    cases i with
    | zero => exact ⟨alone,inside,leaves⟩
    | succ i => exact ⟨leaves.1,leaves.2.1,ihn leaves.2.2 i⟩

theorem map_leaves {leaf : α → Bool} {leaf' : β → Bool} {g : α → β} {f : Forest α}
    (leaves : f.Leaves leaf) (same : ∀ a ∈ f.nodes,leaf' (g a) = leaf a) : (f.map g).Leaves leaf' := by
  induction f with
  | nil => trivial
  | cons a c n ihc ihn =>
    obtain ⟨none,below,behind⟩ := leaves
    simp only [nodes_cons,List.mem_cons,List.mem_append] at same
    refine ⟨fun here => ?_,ihc below fun x member => same x (.inr (.inl member)),
      ihn behind fun x member => same x (.inr (.inr member))⟩
    rw [none ((same a (.inl rfl)).symm.trans here),map]

def width : Forest α → ℕ
  | nil => 0
  | cons _ _ n => n.width + 1

variable [DecidableEq α]

def children (a : α) : Forest α → Forest α
  | nil => nil
  | cons r c n => if r = a then c else if a ∈ c.nodes then c.children a else n.children a

def without (a : α) : Forest α → Forest α
  | nil => nil
  | cons r c n =>
    if r = a then n else if a ∈ c.nodes then cons r (c.without a) n else cons r c (n.without a)

def insert (p a : α) (i : ℕ) : Forest α → Forest α → Forest α
  | nil,_ => nil
  | cons r c n,s =>
    if r = p then cons r (c.place a i s) n
    else if p ∈ c.nodes then cons r (c.insert p a i s) n
    else cons r c (n.insert p a i s)

def top (a : α) : Forest α → Forest α
  | nil => nil
  | cons r c n => if a = r ∨ a ∈ c.nodes then cons r c nil else n.top a

def ancestors (a : α) : Forest α → List α
  | nil => []
  | cons r c n => if r = a then [] else if a ∈ c.nodes then c.ancestors a ++ [r] else n.ancestors a

variable {f : Forest α} {a b p : α}

theorem place_perm (a : α) (i : ℕ) (f s : Forest α) :
    (f.place a i s).nodes.Perm (a :: (s.nodes ++ f.nodes)) := by
  induction f generalizing i with
  | nil => cases i <;> rfl
  | cons r c n ihc ihn =>
    cases i with
    | zero => rfl
    | succ i =>
      rw [place,List.perm_iff_count]
      intro x
      have inner := (ihn i).count_eq x
      simp only [nodes_cons,List.count_cons,List.count_append] at inner ⊢
      omega

theorem insert_perm (i : ℕ) (s : Forest α) (member : p ∈ f.nodes) :
    (f.insert p a i s).nodes.Perm (a :: (s.nodes ++ f.nodes)) := by
  induction f with
  | nil => cases member
  | cons r c n ihc ihn =>
    rw [List.perm_iff_count]
    intro x
    unfold insert
    split
    · have inner := (place_perm a i c s).count_eq x
      simp only [nodes_cons,List.count_cons,List.count_append] at inner ⊢
      omega
    rename_i other
    split
    · rename_i inside
      have inner := (ihc inside).count_eq x
      simp only [nodes_cons,List.count_cons,List.count_append] at inner ⊢
      omega
    · rename_i outside
      have there : p ∈ n.nodes := by
        simpa [Ne.symm other,outside] using member
      have inner := (ihn there).count_eq x
      simp only [nodes_cons,List.count_cons,List.count_append] at inner ⊢
      omega

theorem without_perm (member : a ∈ f.nodes) :
    f.nodes.Perm (a :: ((f.children a).nodes ++ (f.without a).nodes)) := by
  induction f with
  | nil => cases member
  | cons r c n ihc ihn =>
    unfold children without
    split
    · rename_i same
      rw [same]
      rfl
    rename_i other
    rw [List.perm_iff_count]
    intro x
    split
    · rename_i inside
      have inner := (ihc inside).count_eq x
      simp only [nodes_cons,List.count_cons,List.count_append] at inner ⊢
      omega
    · rename_i outside
      have there : a ∈ n.nodes := by
        simpa [Ne.symm other,outside] using member
      have inner := (ihn there).count_eq x
      simp only [nodes_cons,List.count_cons,List.count_append] at inner ⊢
      omega

theorem children_leaves {leaf : α → Bool} (leaves : f.Leaves leaf) : (f.children a).Leaves leaf := by
  induction f with
  | nil => trivial
  | cons r c n ihc ihn =>
    unfold children
    split
    · exact leaves.2.1
    split
    · exact ihc leaves.2.1
    · exact ihn leaves.2.2

theorem children_of_leaf {leaf : α → Bool} (leaves : f.Leaves leaf) (here : leaf a = true) :
    f.children a = nil := by
  induction f with
  | nil => rfl
  | cons r c n ihc ihn =>
    unfold children
    split
    · rename_i same
      exact leaves.1 (same ▸ here)
    split
    · exact ihc leaves.2.1
    · exact ihn leaves.2.2

theorem without_leaves {leaf : α → Bool} (leaves : f.Leaves leaf) : (f.without a).Leaves leaf := by
  induction f with
  | nil => trivial
  | cons r c n ihc ihn =>
    unfold without
    split
    · exact leaves.2.2
    split
    · rename_i inside
      refine ⟨fun here => ?_,ihc leaves.2.1,leaves.2.2⟩
      rw [leaves.1 here] at inside
      cases inside
    · exact ⟨leaves.1,leaves.2.1,ihn leaves.2.2⟩

theorem insert_leaves {leaf : α → Bool} {s : Forest α} (alone : leaf a = true → s = nil)
    (inside : s.Leaves leaf) (parent : leaf p = false) (leaves : f.Leaves leaf) (i : ℕ) :
    (f.insert p a i s).Leaves leaf := by
  induction f with
  | nil => trivial
  | cons r c n ihc ihn =>
    unfold insert
    split
    · rename_i same
      refine ⟨fun here => ?_,place_leaves alone inside leaves.2.1 i,leaves.2.2⟩
      rw [same,parent] at here
      cases here
    split
    · rename_i below
      refine ⟨fun here => ?_,ihc leaves.2.1,leaves.2.2⟩
      rw [leaves.1 here] at below
      cases below
    · exact ⟨leaves.1,leaves.2.1,ihn leaves.2.2⟩

theorem top_leaves {leaf : α → Bool} (leaves : f.Leaves leaf) : (f.top a).Leaves leaf := by
  induction f with
  | nil => trivial
  | cons r c n ihc ihn =>
    unfold top
    split
    · exact ⟨leaves.1,leaves.2.1,trivial⟩
    · exact ihn leaves.2.2

theorem mem_top (member : a ∈ f.nodes) : a ∈ (f.top a).nodes := by
  induction f with
  | nil => cases member
  | cons r c n ihc ihn =>
    unfold top
    split
    · rename_i here
      simpa using here
    · rename_i other
      refine ihn ?_
      rw [nodes_cons,List.mem_cons,List.mem_append] at member
      tauto

theorem top_subset (inside : b ∈ (f.top a).nodes) : b ∈ f.nodes := by
  induction f with
  | nil => cases inside
  | cons r c n ihc ihn =>
    unfold top at inside
    split at inside
    · simp only [nodes_cons,nodes_nil,List.append_nil] at inside
      rw [nodes_cons,← List.cons_append]
      exact List.mem_append_left _ inside
    · rw [nodes_cons,← List.cons_append]
      exact List.mem_append_right _ (ihn inside)

theorem mem_of_top (inside : b ∈ (f.top a).nodes) : a ∈ f.nodes := by
  induction f with
  | nil => cases inside
  | cons r c n ihc ihn =>
    unfold top at inside
    rw [nodes_cons,← List.cons_append]
    split at inside
    · rename_i here
      exact List.mem_append_left _ (List.mem_cons.mpr here)
    · exact List.mem_append_right _ (ihn inside)

theorem top_eq (nodup : f.nodes.Nodup) (inside : b ∈ (f.top a).nodes) : f.top b = f.top a := by
  induction f with
  | nil => cases inside
  | cons r c n ihc ihn =>
    rw [nodes_cons,← List.cons_append] at nodup
    unfold top at inside ⊢
    split at inside
    · rename_i here
      simp only [nodes_cons,nodes_nil,List.append_nil] at inside
      rw [if_pos here,if_pos (List.mem_cons.mp inside)]
    · rename_i other
      have elsewhere : ¬(b = r ∨ b ∈ c.nodes) := fun here =>
        (List.disjoint_of_nodup_append nodup) (List.mem_cons.mpr here) (top_subset inside)
      rw [if_neg other,if_neg elsewhere]
      exact ihn nodup.of_append_right inside

theorem ancestors_subset (above : b ∈ f.ancestors a) : b ∈ f.nodes := by
  induction f with
  | nil => cases above
  | cons r c n ihc ihn =>
    unfold ancestors at above
    rw [nodes_cons,List.mem_cons,List.mem_append]
    split at above
    · cases above
    split at above
    · rcases List.mem_append.mp above with inner | outer
      · exact .inr (.inl (ihc inner))
      · exact .inl (List.mem_singleton.mp outer)
    · exact .inr (.inr (ihn above))

theorem place_top_of_mem (s : Forest α) (member : b ∈ f.nodes) : (f.place a f.width s).top b = f.top b := by
  induction f with
  | nil => cases member
  | cons r c n ihc ihn =>
    simp only [width,place,top]
    split
    · rfl
    · rename_i other
      refine ihn ?_
      rw [nodes_cons,List.mem_cons,List.mem_append] at member
      tauto

theorem place_ancestors_of_mem (s : Forest α) (member : b ∈ f.nodes) :
    (f.place a f.width s).ancestors b = f.ancestors b := by
  induction f with
  | nil => cases member
  | cons r c n ihc ihn =>
    simp only [width,place,ancestors]
    split
    · rfl
    rename_i other
    split
    · rfl
    · rename_i outside
      refine ihn ?_
      simpa [Ne.symm other,outside] using member

theorem place_top_of_new {s : Forest α} (new : b ∉ f.nodes) (inside : b = a ∨ b ∈ s.nodes) :
    (f.place a f.width s).top b = cons a s nil := by
  induction f with
  | nil => exact if_pos inside
  | cons r c n ihc ihn =>
    rw [nodes_cons,← List.cons_append] at new
    have elsewhere : ¬(b = r ∨ b ∈ c.nodes) := fun here =>
      new (List.mem_append_left _ (List.mem_cons.mpr here))
    simp only [width,place,top]
    rw [if_neg elsewhere]
    exact ihn fun there => new (List.mem_append_right _ there)

end Forest

end Sharko.Library
