import Mathlib
import Sharko.Library.Ancestors

/-! The moves from node to node of a forest (to the first and last child, to the siblings and to
the parent) and tree order in their terms, and the removal of a subtree. -/

namespace Sharko.Library.Forest

variable {α : Type*}

def append : Forest α → Forest α → Forest α
  | nil,g => g
  | cons a c n,g => cons a c (n.append g)

theorem nodes_append (f g : Forest α) : (f.append g).nodes = f.nodes ++ g.nodes := by
  induction f with
  | nil => rfl
  | cons a c n _ ihn => simp [append,ihn]

def first : Forest α → Option α
  | nil => none
  | cons a _ _ => some a

def last : Forest α → Option α
  | nil => none
  | cons a _ n => some (n.last.getD a)

theorem first_eq (f : Forest α) : f.first = f.nodes.head? := by
  cases f with
  | nil => rfl
  | cons a c n => rfl

theorem last_mem {f : Forest α} {b : α} (found : f.last = some b) : b ∈ f.nodes := by
  induction f generalizing b with
  | nil => cases found
  | cons r c n _ ihn =>
    rw [last] at found
    obtain rfl := Option.some.inj found
    rw [nodes_cons,List.mem_cons,List.mem_append]
    cases there : n.last with
    | none => exact .inl rfl
    | some y => exact .inr (.inr (ihn there))

@[elab_as_elim]
theorem node_induction {x : α} {motive : (f : Forest α) → f.nodes.Nodup → x ∈ f.nodes → Prop}
    (here : ∀ c n nodup inside, motive (cons x c n) nodup inside)
    (below : ∀ a c n nodup inside, (nodupC : c.nodes.Nodup) → (insideC : x ∈ c.nodes) → a ≠ x →
      motive c nodupC insideC → motive (cons a c n) nodup inside)
    (behind : ∀ a c n nodup inside, (nodupN : n.nodes.Nodup) → (insideN : x ∈ n.nodes) → a ≠ x →
      x ∉ c.nodes → motive n nodupN insideN → motive (cons a c n) nodup inside)
    (f : Forest α) (nodup : f.nodes.Nodup) (inside : x ∈ f.nodes) : motive f nodup inside := by
  induction f with
  | nil => cases inside
  | cons a c n ihc ihn =>
    obtain ⟨outC,outN,nodupC,nodupN,disjoint⟩ := nodup_parts nodup
    have cases := inside
    rw [nodes_cons,List.mem_cons,List.mem_append] at cases
    rcases cases with same | insideC | insideN
    · subst same
      exact here c n nodup inside
    · exact below a c n nodup inside nodupC insideC (fun same => outC (same ▸ insideC))
        (ihc nodupC insideC)
    · exact behind a c n nodup inside nodupN insideN (fun same => outN (same ▸ insideN))
        (fun insideC => disjoint x insideC insideN) (ihn nodupN insideN)

theorem findSome_congr {β : Type*} {g h : α → Option β} {l : List α} (same : ∀ x ∈ l, g x = h x) :
    l.findSome? g = l.findSome? h := by
  induction l with
  | nil => rfl
  | cons x l ih =>
    rw [List.findSome?_cons,List.findSome?_cons,same x List.mem_cons_self,
      ih fun y there => same y (List.mem_cons_of_mem x there)]

variable [DecidableEq α]

def nextOf (a : α) : Forest α → Option α
  | nil => none
  | cons r c n => if r = a then n.first else if a ∈ c.nodes then c.nextOf a else n.nextOf a

def prevFrom (a : α) : Option α → Forest α → Option α
  | _,nil => none
  | before,cons r c n =>
    if r = a then before
    else if a ∈ c.nodes then c.prevFrom a none
    else n.prevFrom a (some r)

def prevOf (a : α) (f : Forest α) : Option α := f.prevFrom a none

def rest (a : α) : Forest α → List α
  | nil => []
  | cons r c n =>
    if r = a then c.nodes ++ n.nodes else if a ∈ c.nodes then c.rest a ++ n.nodes else n.rest a

variable {f : Forest α} {a b p x : α}

/-- The node that comes next in tree order is the first child, or else the next sibling of the
nearest node upwards that has one. -/
theorem head_rest (nodup : f.nodes.Nodup) (inside : x ∈ f.nodes) :
    (f.children x).first.or ((x :: f.ancestors x).findSome? fun y => f.nextOf y) = (f.rest x).head? := by
  induction f, nodup, inside using node_induction with
  | here c n nodup inside =>
    simp [children,ancestors,nextOf,rest,first_eq,List.head?_append]
  | below a c n nodup inside nodupC insideC other ih =>
    have climb : ((x :: c.ancestors x).findSome? fun y => (cons a c n).nextOf y) =
        (x :: c.ancestors x).findSome? fun y => c.nextOf y := by
      apply findSome_congr
      intro y up
      have belowY : y ∈ c.nodes := by
        rcases List.mem_cons.mp up with rfl | above
        · exact insideC
        · exact ancestors_subset above
      rw [nextOf,if_neg,if_pos belowY]
      rintro rfl
      exact (nodup_parts nodup).1 belowY
    rw [ancestors_below nodup insideC,children_cons,if_neg other,if_pos insideC,rest,if_neg other,
      if_pos insideC,← List.cons_append,List.findSome?_append,climb,← Option.or_assoc,ih,
      List.head?_append]
    simp [nextOf,first_eq]
  | behind a c n nodup inside nodupN insideN other outside ih =>
    have climb : ((x :: n.ancestors x).findSome? fun y => (cons a c n).nextOf y) =
        (x :: n.ancestors x).findSome? fun y => n.nextOf y := by
      apply findSome_congr
      intro y up
      have behindY : y ∈ n.nodes := by
        rcases List.mem_cons.mp up with rfl | above
        · exact insideN
        · exact ancestors_subset above
      obtain ⟨-,outN,-,-,disjoint⟩ := nodup_parts nodup
      rw [nextOf,if_neg,if_neg fun there => disjoint y there behindY]
      rintro rfl
      exact outN behindY
    rw [ancestors_behind nodup insideN,children_cons,if_neg other,if_neg outside,rest,if_neg other,
      if_neg outside,climb,ih]

def front (a : α) : Forest α → List α
  | nil => []
  | cons r c n =>
    if r = a then [] else if a ∈ c.nodes then r :: c.front a else r :: (c.nodes ++ n.front a)

theorem front_rest (inside : a ∈ f.nodes) : f.nodes = f.front a ++ a :: f.rest a := by
  induction f with
  | nil => cases inside
  | cons r c n ihc ihn =>
    rw [nodes_cons,rest,front]
    split
    next same => rw [same,List.nil_append]
    next other =>
      split
      next below =>
        rw [ihc below]
        simp
      next outside =>
        have behind : a ∈ n.nodes := by
          simpa [Ne.symm other,outside] using inside
        rw [ihn behind]
        simp

def lastIn (a : α) (f : Forest α) : α := (f.children a).nodes.getLast?.getD a

section below

variable {c n : Forest α}

theorem children_below (nodup : (cons a c n).nodes.Nodup) (below : x ∈ c.nodes) :
    (cons a c n).children x = c.children x := by
  have other : a ≠ x := fun same => (nodup_parts nodup).1 (same ▸ below)
  rw [children_cons,if_neg other,if_pos below]

theorem children_behind (nodup : (cons a c n).nodes.Nodup) (behind : x ∈ n.nodes) :
    (cons a c n).children x = n.children x := by
  obtain ⟨-,outN,-,-,disjoint⟩ := nodup_parts nodup
  have other : a ≠ x := fun same => outN (same ▸ behind)
  rw [children_cons,if_neg other,if_neg fun below => disjoint x below behind]

theorem nextOf_below (nodup : (cons a c n).nodes.Nodup) (below : x ∈ c.nodes) :
    (cons a c n).nextOf x = c.nextOf x := by
  have other : a ≠ x := fun same => (nodup_parts nodup).1 (same ▸ below)
  rw [nextOf,if_neg other,if_pos below]

theorem nextOf_behind (nodup : (cons a c n).nodes.Nodup) (behind : x ∈ n.nodes) :
    (cons a c n).nextOf x = n.nextOf x := by
  obtain ⟨-,outN,-,-,disjoint⟩ := nodup_parts nodup
  have other : a ≠ x := fun same => outN (same ▸ behind)
  rw [nextOf,if_neg other,if_neg fun below => disjoint x below behind]

end below

theorem read_children {β : Type*} (read : Forest α → β) (nodup : f.nodes.Nodup) (inside : p ∈ f.nodes)
    (below : ∀ a c n, (cons a c n).nodes.Nodup → x ∈ c.nodes → read (cons a c n) = read c)
    (behind : ∀ a c n, (cons a c n).nodes.Nodup → x ∈ n.nodes → read (cons a c n) = read n)
    (child : x ∈ (f.children p).nodes) : read f = read (f.children p) := by
  induction f, nodup, inside using node_induction with
  | here c n nodup inside =>
    rw [children_cons,if_pos rfl] at child ⊢
    exact below p c n nodup child
  | below a c n nodup inside nodupC insideC other ih =>
    rw [children_below nodup insideC] at child ⊢
    rw [below a c n nodup ((children_sublist p c).subset child),ih child]
  | behind a c n nodup inside nodupN insideN other outside ih =>
    rw [children_behind nodup insideN] at child ⊢
    rw [behind a c n nodup ((children_sublist p n).subset child),ih child]

theorem children_children (nodup : f.nodes.Nodup) (inside : p ∈ f.nodes)
    (child : x ∈ (f.children p).nodes) : f.children x = (f.children p).children x :=
  read_children (fun g => g.children x) nodup inside
    (fun _ _ _ nodup below => children_below nodup below)
    (fun _ _ _ nodup behind => children_behind nodup behind) child

theorem nextOf_children (nodup : f.nodes.Nodup) (inside : p ∈ f.nodes)
    (child : x ∈ (f.children p).nodes) : f.nextOf x = (f.children p).nextOf x :=
  read_children (fun g => g.nextOf x) nodup inside
    (fun _ _ _ nodup below => nextOf_below nodup below)
    (fun _ _ _ nodup behind => nextOf_behind nodup behind) child

theorem prevFrom_children (nodup : f.nodes.Nodup) (inside : p ∈ f.nodes)
    (child : x ∈ (f.children p).nodes) (before : Option α) : f.prevFrom x before = (f.children p).prevOf x := by
  induction f, nodup, inside using node_induction generalizing before with
  | here c n nodup inside =>
    rw [children_cons,if_pos rfl] at child ⊢
    have other : p ≠ x := fun same => (nodup_parts nodup).1 (same ▸ child)
    rw [prevFrom,if_neg other,if_pos child,prevOf]
  | below a c n nodup inside nodupC insideC other ih =>
    rw [children_below nodup insideC] at child ⊢
    have belowC := (children_sublist p c).subset child
    have other : a ≠ x := fun same => (nodup_parts nodup).1 (same ▸ belowC)
    rw [prevFrom,if_neg other,if_pos belowC,ih child]
  | behind a c n nodup inside nodupN insideN other outside ih =>
    obtain ⟨-,outN,-,-,disjoint⟩ := nodup_parts nodup
    rw [children_behind nodup insideN] at child ⊢
    have behindN := (children_sublist p n).subset child
    have other : a ≠ x := fun same => outN (same ▸ behindN)
    rw [prevFrom,if_neg other,if_neg fun there => disjoint x there behindN,ih child]

theorem ancestors_children (nodup : f.nodes.Nodup) (inside : p ∈ f.nodes) (child : x ∈ (f.children p).nodes) :
    f.ancestors x = (f.children p).ancestors x ++ p :: f.ancestors p := by
  induction f, nodup, inside using node_induction with
  | here c n nodup inside =>
    rw [children_cons,if_pos rfl] at child ⊢
    rw [ancestors_below nodup child,ancestors_self]
  | below a c n nodup inside nodupC insideC other ih =>
    rw [children_below nodup insideC] at child ⊢
    rw [ancestors_below nodup ((children_sublist p c).subset child),ancestors_below nodup insideC,
      ih child]
    simp
  | behind a c n nodup inside nodupN insideN other outside ih =>
    rw [children_behind nodup insideN] at child ⊢
    rw [ancestors_behind nodup ((children_sublist p n).subset child),
      ancestors_behind nodup insideN,ih child]

/-- The node in front of another in tree order is the last one below its previous sibling, or
else its parent. -/
theorem last_front (nodup : f.nodes.Nodup) (inside : x ∈ f.nodes) (before : Option α) :
    f.front x = [] ∧ f.prevFrom x before = before ∧ f.ancestors x = [] ∨
      (∃ s ∈ f.nodes, f.prevFrom x before = some s ∧ (f.front x).getLast? = some (f.lastIn s)) ∨
      ∃ q, f.prevFrom x before = none ∧ (f.ancestors x).head? = some q ∧ (f.front x).getLast? = some q := by
  induction f, nodup, inside using node_induction generalizing before with
  | here c n nodup inside => exact .inl ⟨by rw [front,if_pos rfl],by rw [prevFrom,if_pos rfl],ancestors_self ..⟩
  | below a c n nodup inside nodupC insideC other ih =>
    rw [front,if_neg other,if_pos insideC,prevFrom,if_neg other,if_pos insideC,
      ancestors_below nodup insideC]
    rcases ih none with ⟨empty,alone,top⟩ | ⟨s,there,found,final⟩ | ⟨q,alone,up,final⟩
    · exact .inr (.inr ⟨a,alone,by rw [top]; rfl,by rw [empty]; rfl⟩)
    · refine .inr (.inl ⟨s,?_,found,?_⟩)
      · rw [nodes_cons]
        exact List.mem_cons_of_mem a (List.mem_append_left _ there)
      · rw [List.getLast?_cons,final,lastIn,lastIn,children_below nodup there]
        rfl
    · refine .inr (.inr ⟨q,alone,?_,?_⟩)
      · rw [List.head?_append,up]
        rfl
      · rw [List.getLast?_cons,final]
        rfl
  | behind a c n nodup inside nodupN insideN other outside ih =>
    rw [front,if_neg other,if_neg outside,prevFrom,if_neg other,if_neg outside,
      ancestors_behind nodup insideN]
    rcases ih (some a) with ⟨empty,alone,top⟩ | ⟨s,there,found,final⟩ | ⟨q,alone,up,final⟩
    · refine .inr (.inl ⟨a,?_,alone,?_⟩)
      · rw [nodes_cons]
        exact List.mem_cons_self
      · rw [empty,List.append_nil,List.getLast?_cons,lastIn,children_cons,if_pos rfl]
    · refine .inr (.inl ⟨s,?_,found,?_⟩)
      · rw [nodes_cons]
        exact List.mem_cons_of_mem a (List.mem_append_right _ there)
      · rw [List.getLast?_cons,List.getLast?_append,final,lastIn,lastIn,children_behind nodup there]
        rfl
    · refine .inr (.inr ⟨q,alone,up,?_⟩)
      rw [List.getLast?_cons,List.getLast?_append,final]
      rfl

theorem getLast_nodes (nodup : f.nodes.Nodup) : f.nodes.getLast? = f.last.map fun b => f.lastIn b := by
  induction f with
  | nil => rfl
  | cons a c n _ ihn =>
    obtain ⟨-,outN,-,nodupN,-⟩ := nodup_parts nodup
    rw [nodes_cons,List.getLast?_cons,List.getLast?_append,ihn nodupN,last]
    cases final : n.last with
    | none =>
      simp [lastIn,children_cons]
    | some b =>
      simp [lastIn,children_behind nodup (last_mem final)]

theorem lastIn_of_last (nodup : f.nodes.Nodup) (inside : a ∈ f.nodes)
    (found : (f.children a).last = some b) : f.lastIn a = f.lastIn b := by
  have final := getLast_nodes (nodup.sublist (children_sublist a f))
  rw [found] at final
  have inner : (f.children a).lastIn b = f.lastIn b := by
    rw [lastIn,lastIn,children_children nodup inside (last_mem found)]
  rw [lastIn,final]
  exact inner

theorem lastIn_of_leaf (none_ : (f.children a).last = none) : f.lastIn a = a := by
  cases below : f.children a with
  | nil =>
    rw [lastIn,below]
    rfl
  | cons r c n =>
    rw [below] at none_
    cases none_

theorem not_below_self (nodup : f.nodes.Nodup) (a : α) : a ∉ (f.children a).nodes := by
  intro below
  have inside := (children_sublist a f).subset below
  have above := (mem_children_iff nodup inside).mp below
  exact (List.nodup_cons.mp (ancestors_nodup nodup a)).1 above

theorem nodes_without (nodup : f.nodes.Nodup) (inside : a ∈ f.nodes) :
    (f.without a).nodes = f.nodes.filter fun x => !decide (x ∈ a :: (f.children a).nodes) := by
  induction f, nodup, inside using node_induction with
  | here c n nodup inside =>
    obtain ⟨outC,outN,-,-,disjoint⟩ := nodup_parts nodup
    rw [without,if_pos rfl,children_cons,if_pos rfl,nodes_cons,List.filter_cons_of_neg (by simp),
      List.filter_append]
    have none_ : c.nodes.filter (fun x => !decide (x ∈ a :: c.nodes)) = [] := by
      apply List.filter_eq_nil_iff.mpr
      intro x there
      simp [there]
    have all : n.nodes.filter (fun x => !decide (x ∈ a :: c.nodes)) = n.nodes := by
      apply List.filter_eq_self.mpr
      intro x there
      have other : x ≠ a := fun same => outN (same ▸ there)
      have outside : x ∉ c.nodes := fun below => disjoint x below there
      simp [other,outside]
    rw [none_,all,List.nil_append]
  | below r c n nodup inside nodupC insideC other ih =>
    obtain ⟨outC,-,-,-,disjoint⟩ := nodup_parts nodup
    have all : n.nodes.filter (fun x => !decide (x ∈ a :: (c.children a).nodes)) = n.nodes := by
      apply List.filter_eq_self.mpr
      intro x there
      have other : x ≠ a := fun same => disjoint a insideC (same ▸ there)
      have outside : x ∉ (c.children a).nodes :=
        fun below => disjoint x ((children_sublist a c).subset below) there
      simp [other,outside]
    have kept : r ∉ a :: (c.children a).nodes := by
      rw [List.mem_cons,not_or]
      exact ⟨other,fun below => outC ((children_sublist a c).subset below)⟩
    rw [without,if_neg other,if_pos insideC,children_below nodup insideC,nodes_cons,nodes_cons,ih,
      List.filter_cons_of_pos (by simpa using kept),List.filter_append,all]
  | behind r c n nodup inside nodupN insideN other outside ih =>
    obtain ⟨-,outN,-,-,disjoint⟩ := nodup_parts nodup
    have all : c.nodes.filter (fun x => !decide (x ∈ a :: (n.children a).nodes)) = c.nodes := by
      apply List.filter_eq_self.mpr
      intro x there
      have other : x ≠ a := fun same => outside (same ▸ there)
      have away : x ∉ (n.children a).nodes :=
        fun behind => disjoint x there ((children_sublist a n).subset behind)
      simp [other,away]
    have kept : r ∉ a :: (n.children a).nodes := by
      rw [List.mem_cons,not_or]
      exact ⟨other,fun below => outN ((children_sublist a n).subset below)⟩
    rw [without,if_neg other,if_neg outside,children_behind nodup insideN,nodes_cons,nodes_cons,ih,
      List.filter_cons_of_pos (by simpa using kept),List.filter_append,all]

theorem mem_without (nodup : f.nodes.Nodup) (inside : a ∈ f.nodes) :
    x ∈ (f.without a).nodes ↔ x ∈ f.nodes ∧ x ∉ a :: (f.children a).nodes := by
  rw [nodes_without nodup inside,List.mem_filter]
  simp

theorem children_without (nodup : f.nodes.Nodup) (inside : a ∈ f.nodes) (there : p ∈ f.nodes)
    (away : p ∉ a :: (f.children a).nodes) : (f.without a).children p =
      if a ∈ (f.children p).nodes then (f.children p).without a else f.children p := by
  induction f, nodup, inside using node_induction with
  | here c n nodup inside =>
    obtain ⟨-,outN,-,-,-⟩ := nodup_parts nodup
    rw [children_cons,if_pos rfl,List.mem_cons,not_or] at away
    have behind : p ∈ n.nodes := by simpa [away.1,away.2] using there
    rw [without,if_pos rfl,children_behind nodup behind,
      if_neg fun below => outN ((children_sublist p n).subset below)]
  | below r c n nodup inside nodupC insideC other ih =>
    obtain ⟨outC,outN,-,-,disjoint⟩ := nodup_parts nodup
    rw [children_below nodup insideC] at away
    rw [without,if_neg other,if_pos insideC]
    rw [nodes_cons,List.mem_cons,List.mem_append] at there
    rcases there with rfl | below | behind
    · rw [children_cons,if_pos rfl,children_cons,if_pos rfl,if_pos insideC]
    · have other' : r ≠ p := fun same => outC (same ▸ below)
      rw [children_below nodup below,children_cons,if_neg other',
        if_pos ((mem_without nodupC insideC).mpr ⟨below,away⟩),ih below away]
    · have other' : r ≠ p := fun same => outN (same ▸ behind)
      have outside : p ∉ (c.without a).nodes :=
        fun here => disjoint p ((mem_without nodupC insideC).mp here).1 behind
      rw [children_behind nodup behind,children_cons,if_neg other',if_neg outside,
        if_neg fun here => disjoint a insideC ((children_sublist p n).subset here)]
  | behind r c n nodup inside nodupN insideN other outside ih =>
    obtain ⟨outC,outN,-,-,disjoint⟩ := nodup_parts nodup
    rw [children_behind nodup insideN] at away
    rw [without,if_neg other,if_neg outside]
    rw [nodes_cons,List.mem_cons,List.mem_append] at there
    rcases there with rfl | below | behind
    · rw [children_cons,if_pos rfl,children_cons,if_pos rfl,if_neg outside]
    · have other' : r ≠ p := fun same => outC (same ▸ below)
      rw [children_below nodup below,children_cons,if_neg other',if_pos below,
        if_neg fun here => outside ((children_sublist p c).subset here)]
    · have other' : r ≠ p := fun same => outN (same ▸ behind)
      have away' : p ∉ c.nodes := fun below => disjoint p below behind
      rw [children_behind nodup behind,children_cons,if_neg other',if_neg away',ih behind away]

def detach (a : α) (f : Forest α) : Forest α := cons a (f.children a) (f.without a)

theorem detach_perm (inside : a ∈ f.nodes) : (f.detach a).nodes.Perm f.nodes :=
  (without_perm inside).symm

theorem detach_nodup (nodup : f.nodes.Nodup) (inside : a ∈ f.nodes) : (f.detach a).nodes.Nodup :=
  (detach_perm inside).nodup_iff.mpr nodup

theorem children_detach (nodup : f.nodes.Nodup) (inside : a ∈ f.nodes) (there : p ∈ f.nodes) :
    (f.detach a).children p =
      if a ∈ (f.children p).nodes then (f.children p).without a else f.children p := by
  unfold detach
  by_cases same : a = p
  · subst same
    rw [children_cons,if_pos rfl,if_neg (not_below_self nodup a)]
  by_cases below : p ∈ (f.children a).nodes
  · have inner := children_children nodup inside below
    have outside : a ∉ (f.children p).nodes := by
      intro again
      rw [inner] at again
      exact not_below_self nodup a ((children_sublist p _).subset again)
    rw [children_cons,if_neg same,if_pos below,if_neg outside,inner]
  · have away : p ∉ a :: (f.children a).nodes := by
      rw [List.mem_cons,not_or]
      exact ⟨Ne.symm same,below⟩
    rw [children_cons,if_neg same,if_neg below,children_without nodup inside there away]

end Sharko.Library.Forest
