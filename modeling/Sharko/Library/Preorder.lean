import Mathlib.Data.List.Lex
import Mathlib.Data.List.Infix
import Mathlib.Data.List.Flatten

/-! Trees with ordered children, whose nodes are named by their addresses: the
indices on the way from the node up to the root, the node's own first. Preorder is
the lexicographic order of the ways down; what follows and what precedes a node are
the nodes that branch off to its right and to its left. -/

namespace Sharko.Library

inductive Rose (α : Type*) where
  | node (data : α) (children : List (Rose α))

abbrev Address := List Nat

namespace Rose
variable {α : Type*}

def data : Rose α → α
  | node data _ => data

def children : Rose α → List (Rose α)
  | node _ children => children

def at? (t : Rose α) : Address → Option (Rose α)
  | [] => some t
  | i :: up => (t.at? up).bind fun s => s.children[i]?

def Inside (t : Rose α) (a : Address) : Prop := (t.at? a).isSome

instance (t : Rose α) (a : Address) : Decidable (t.Inside a) := inferInstanceAs (Decidable (_ = true))

def childCount (t : Rose α) (a : Address) : Nat := ((t.at? a).map fun s => s.children.length).getD 0

mutual

def descendants : Rose α → Address → List Address
  | node _ children, a => descendantsFrom children 0 a

def descendantsFrom : List (Rose α) → Nat → Address → List Address
  | [], _, _ => []
  | child :: rest, i, a => (i :: a) :: (descendants child (i :: a) ++ descendantsFrom rest (i + 1) a)

end

def subtree (t : Rose α) (a : Address) : List Address :=
  (t.at? a).elim [] fun s => a :: descendants s a

def laterSiblings (t : Rose α) : Address → List Address
  | [] => []
  | i :: up => (List.range' (i + 1) (t.childCount up - (i + 1))).map fun j => j :: up

def earlierSiblings : Address → List Address
  | [] => []
  | i :: up => (List.range i).reverse.map fun j => j :: up

def following (t : Rose α) : Address → List Address
  | [] => []
  | i :: up => (t.laterSiblings (i :: up)).flatMap t.subtree ++ t.following up

def preceding (t : Rose α) : Address → List Address
  | [] => []
  | i :: up => (earlierSiblings (i :: up)).flatMap (fun s => (t.subtree s).reverse) ++ t.preceding up

end Rose

namespace Address

def ancestors : Address → List Address
  | [] => []
  | _ :: up => up :: ancestors up

def Before (a b : Address) : Prop := a.reverse < b.reverse

instance : DecidableRel Before := fun a b => inferInstanceAs (Decidable (a.reverse < b.reverse))

def Branches (a b : Address) : Prop :=
  ∃ v w c i j, a = v ++ i :: c ∧ b = w ++ j :: c ∧ i < j

theorem before_trans {a b c : Address} (first : Before a b) (second : Before b c) : Before a c :=
  lt_trans (a := a.reverse) first second

theorem before_irrefl (a : Address) : ¬ Before a a := lt_irrefl a.reverse

theorem before_asymm {a b : Address} (first : Before a b) : ¬ Before b a :=
  fun second => before_irrefl a (before_trans first second)

theorem lex_append {first second : List Nat} (common : List Nat) (less : first < second) :
    common ++ first < common ++ second := by
  induction common with
  | nil => exact less
  | cons i rest ih => exact List.Lex.cons ih

theorem before_below {w : Address} (proper : w ≠ []) (a : Address) : Before a (w ++ a) := by
  have less : ([] : List Nat) < w.reverse := by
    cases h : w.reverse with
    | nil => exact absurd (List.reverse_eq_nil_iff.mp h) proper
    | cons i rest => exact List.Lex.nil
  have grown := lex_append a.reverse less
  rwa [List.append_nil,← List.reverse_append] at grown

theorem Branches.before {a b : Address} (branches : Branches a b) : Before a b := by
  obtain ⟨v,w,c,i,j,rfl,rfl,less⟩ := branches
  have step : i :: v.reverse < j :: w.reverse := List.Lex.rel less
  have grown := lex_append c.reverse step
  simpa [Before] using grown

theorem sibling_suffixes {i j : Nat} {c q : Address} (first : i :: c <:+ q) (second : j :: c <:+ q) :
    i = j := by
  have nested := List.suffix_of_suffix_length_le first second (Nat.le_of_eq (by simp))
  exact (List.cons.inj (nested.eq_of_length (by simp))).1

theorem Branches.apart {a b : Address} (branches : Branches a b) : ¬ a <:+ b ∧ ¬ b <:+ a := by
  obtain ⟨v,w,c,i,j,rfl,rfl,less⟩ := branches
  constructor
  · intro above
    exact less.ne (sibling_suffixes ((List.suffix_append v _).trans above) (List.suffix_append w _))
  · intro above
    exact less.ne (sibling_suffixes (List.suffix_append v _) ((List.suffix_append w _).trans above))

theorem cases (a b : Address) : a <:+ b ∨ b <:+ a ∨ Branches a b ∨ Branches b a := by
  induction a using List.reverseRecOn generalizing b with
  | nil => exact .inl (List.nil_suffix)
  | append_singleton v i ih =>
    rcases List.eq_nil_or_concat b with rfl | ⟨w,j,rfl⟩
    · exact .inr (.inl List.nil_suffix)
    · rcases lt_trichotomy i j with less | rfl | less
      · exact .inr (.inr (.inl ⟨v,w,[],i,j,rfl,by simp,less⟩))
      · have grow : ∀ {x y : Address}, Branches x y → Branches (x ++ [i]) (y ++ [i]) := by
          rintro x y ⟨v,w,c,k,l,rfl,rfl,less⟩
          exact ⟨v,w,c ++ [i],k,l,by simp,by simp,less⟩
        rw [List.concat_eq_append]
        rcases ih w with h | h | h | h
        · obtain ⟨u,rfl⟩ := h
          exact .inl ⟨u,by simp⟩
        · obtain ⟨u,rfl⟩ := h
          exact .inr (.inl ⟨u,by simp⟩)
        · exact .inr (.inr (.inl (grow h)))
        · exact .inr (.inr (.inr (grow h)))
      · exact .inr (.inr (.inr ⟨w,v,[],j,i,by simp,rfl,less⟩))

theorem branches_below {a b : Address} (v : Address) (branches : Branches a b) : Branches (v ++ a) b := by
  obtain ⟨u,w,c,i,j,rfl,rfl,less⟩ := branches
  exact ⟨v ++ u,w,c,i,j,by simp,rfl,less⟩

theorem below_branches {a b : Address} (w : Address) (branches : Branches a b) : Branches a (w ++ b) := by
  obtain ⟨v,u,c,i,j,rfl,rfl,less⟩ := branches
  exact ⟨v,w ++ u,c,i,j,rfl,by simp,less⟩

theorem Branches.trans {a b c : Address} (first : Branches a b) (second : Branches b c) : Branches a c := by
  obtain ⟨v,w,p,i,j,rfl,same,less⟩ := first
  obtain ⟨v',w',p',i',j',same',rfl,less'⟩ := second
  rw [same] at same'
  -- The two ways part from `b` at the same node or one above the other.
  rcases List.append_eq_append_iff.mp same' with ⟨u,_,parted⟩ | ⟨u,_,parted⟩
  · cases u with
    | nil =>
      obtain ⟨rfl,rfl⟩ := List.cons.inj (by simpa using parted)
      exact ⟨v,w',p,i,j',rfl,rfl,less.trans less'⟩
    | cons k u =>
      obtain ⟨rfl,rfl⟩ := List.cons.inj (by simpa using parted)
      exact ⟨v ++ i :: u,w',p',i',j',by simp,rfl,less'⟩
  · cases u with
    | nil =>
      obtain ⟨rfl,rfl⟩ := List.cons.inj (by simpa using parted)
      exact ⟨v,w',p',i,j',rfl,rfl,less.trans less'⟩
    | cons k u =>
      obtain ⟨rfl,rfl⟩ := List.cons.inj (by simpa using parted)
      exact ⟨v,w' ++ j' :: u,p,i,j,rfl,by simp,less⟩

theorem branches_of_before {a b : Address} (before : Before a b) (outside : ¬ a <:+ b) : Branches a b := by
  rcases cases a b with h | h | h | h
  · exact absurd h outside
  · obtain ⟨w,rfl⟩ := h
    cases w with
    | nil => exact absurd before (before_irrefl _)
    | cons i w => exact absurd before (before_asymm (before_below (by simp) b))
  · exact h
  · exact absurd before (before_asymm h.before)

theorem mem_ancestors {a b : Address} : b ∈ ancestors a ↔ b <:+ a ∧ b ≠ a := by
  induction a with
  | nil => simp [ancestors]
  | cons i up ih =>
    simp only [ancestors,List.mem_cons,ih,List.suffix_cons_iff]
    constructor
    · rintro (rfl | ⟨above,_⟩)
      · exact ⟨.inr List.suffix_rfl,by simp⟩
      · exact ⟨.inr above,fun same => by
          have bound := above.length_le
          rw [same,List.length_cons] at bound
          exact Nat.not_succ_le_self _ bound⟩
    · rintro ⟨rfl | above,other⟩
      · exact absurd rfl other
      · by_cases same : b = up
        · exact .inl same
        · exact .inr ⟨above,same⟩

theorem ancestors_falling (a : Address) : (ancestors a).Pairwise fun b c => Before c b := by
  induction a with
  | nil => exact List.Pairwise.nil
  | cons i up ih =>
    refine List.Pairwise.cons ?_ ih
    intro b above
    obtain ⟨⟨w,rfl⟩,proper⟩ := mem_ancestors.mp above
    refine before_below ?_ b
    rintro rfl
    exact proper rfl

theorem later_sibling {i j : Nat} (v w : Address) (less : i < j) (up : Address) :
    Branches (v ++ i :: up) (w ++ j :: up) := ⟨v,w,up,i,j,rfl,rfl,less⟩

end Address

namespace Rose
open Address

variable {α : Type*} {t : Rose α}

theorem at?_below (t : Rose α) (w a : Address) : t.at? (w ++ a) = (t.at? a).bind fun s => s.at? w := by
  induction w with
  | nil => cases h : t.at? a <;> simp [at?,h]
  | cons i w ih =>
    rw [List.cons_append,at?,ih]
    cases t.at? a <;> simp [at?]

theorem Inside.above {w a : Address} (inside : t.Inside (w ++ a)) : t.Inside a := by
  unfold Inside at inside ⊢
  rw [at?_below] at inside
  cases h : t.at? a with
  | none => simp [h] at inside
  | some s => rfl

theorem inside_child {a : Address} {i : Nat} : t.Inside (i :: a) ↔ i < t.childCount a := by
  unfold Inside childCount
  cases h : t.at? a <;> simp [at?,h]

theorem at?_child (data : α) (children : List (Rose α)) (w : Address) (k : Nat) :
    (node data children).at? (w ++ [k]) = children[k]?.bind fun child => child.at? w := by
  rw [at?_below]
  rfl

mutual

theorem mem_descendants (s : Rose α) (a q : Address) :
    q ∈ descendants s a ↔ ∃ w, w ≠ [] ∧ q = w ++ a ∧ s.Inside w := by
  cases s with
  | node data children =>
    rw [descendants,mem_descendantsFrom children 0 a q]
    constructor
    · rintro ⟨w,k,child,found,rfl,inside⟩
      refine ⟨w ++ [k],by simp,by simp,?_⟩
      rw [Inside,at?_child,found]
      exact inside
    · rintro ⟨w,proper,rfl,inside⟩
      rcases List.eq_nil_or_concat w with rfl | ⟨u,k,rfl⟩
      · exact absurd rfl proper
      · rw [List.concat_eq_append,Inside,at?_child] at inside
        obtain ⟨s,found⟩ := Option.isSome_iff_exists.mp inside
        obtain ⟨child,here,below⟩ := Option.bind_eq_some_iff.mp found
        exact ⟨u,k,child,here,by simp,Option.isSome_iff_exists.mpr ⟨s,below⟩⟩

theorem mem_descendantsFrom (children : List (Rose α)) (i : Nat) (a q : Address) :
    q ∈ descendantsFrom children i a ↔
      ∃ w k child, children[k]? = some child ∧ q = w ++ (i + k) :: a ∧ child.Inside w := by
  cases children with
  | nil => simp [descendantsFrom]
  | cons child rest =>
    rw [descendantsFrom,List.mem_cons,List.mem_append,mem_descendants child (i :: a) q,
      mem_descendantsFrom rest (i + 1) a q]
    constructor
    · rintro (rfl | ⟨w,_,rfl,inside⟩ | ⟨w,k,child',found,rfl,inside⟩)
      · exact ⟨[],0,child,rfl,rfl,rfl⟩
      · exact ⟨w,0,child,rfl,rfl,inside⟩
      · exact ⟨w,k + 1,child',found,by rw [Nat.add_right_comm,Nat.add_assoc],inside⟩
    · rintro ⟨w,k,child',found,rfl,inside⟩
      cases k with
      | zero =>
        cases found
        cases w with
        | nil => exact .inl rfl
        | cons j w => exact .inr (.inl ⟨j :: w,by simp,rfl,inside⟩)
      | succ k =>
        exact .inr (.inr ⟨w,k,child',found,by rw [Nat.add_right_comm,Nat.add_assoc],inside⟩)

end

mutual

theorem descendants_rising (s : Rose α) (a : Address) : (descendants s a).Pairwise Before := by
  cases s with
  | node data children => exact descendantsFrom_rising children 0 a

theorem descendantsFrom_rising (children : List (Rose α)) (i : Nat) (a : Address) :
    (descendantsFrom children i a).Pairwise Before := by
  cases children with
  | nil => exact List.Pairwise.nil
  | cons child rest =>
    have right : ∀ v, ∀ q ∈ descendantsFrom rest (i + 1) a, Before (v ++ i :: a) q := by
      intro v q inside
      obtain ⟨w,k,_,_,rfl,_⟩ := (mem_descendantsFrom rest (i + 1) a q).mp inside
      exact (later_sibling v w (by omega) a).before
    refine List.Pairwise.cons ?_ (List.pairwise_append.mpr
      ⟨descendants_rising child (i :: a),descendantsFrom_rising rest (i + 1) a,?_⟩)
    · intro q inside
      rcases List.mem_append.mp inside with below | later
      · obtain ⟨w,proper,rfl,_⟩ := (mem_descendants child (i :: a) q).mp below
        exact before_below proper (i :: a)
      · exact right [] q later
    · intro p below q later
      obtain ⟨w,_,rfl,_⟩ := (mem_descendants child (i :: a) p).mp below
      exact right w q later

end

theorem mem_subtree {a q : Address} : q ∈ t.subtree a ↔ a <:+ q ∧ t.Inside q := by
  unfold subtree
  constructor
  · intro inside
    cases h : t.at? a with
    | none => simp [h] at inside
    | some s =>
      simp only [h,Option.elim,List.mem_cons] at inside
      rcases inside with rfl | below
      · exact ⟨List.suffix_rfl,by rw [Inside,h]; rfl⟩
      · obtain ⟨w,_,rfl,inside⟩ := (mem_descendants s a q).mp below
        exact ⟨List.suffix_append w a,by rw [Inside,at?_below,h]; exact inside⟩
  · rintro ⟨⟨w,rfl⟩,inside⟩
    obtain ⟨s,h⟩ := Option.isSome_iff_exists.mp inside.above
    rw [Inside,at?_below,h] at inside
    simp only [h,Option.elim,List.mem_cons]
    cases w with
    | nil => exact .inl rfl
    | cons i w => exact .inr ((mem_descendants s a _).mpr ⟨i :: w,by simp,rfl,inside⟩)

theorem subtree_rising (t : Rose α) (a : Address) : (t.subtree a).Pairwise Before := by
  unfold subtree
  cases t.at? a with
  | none => exact List.Pairwise.nil
  | some s =>
    refine List.Pairwise.cons ?_ (descendants_rising s a)
    intro q inside
    obtain ⟨w,proper,rfl,_⟩ := (mem_descendants s a q).mp inside
    exact before_below proper a

theorem mem_laterSiblings {i : Nat} {up q : Address} :
    q ∈ t.laterSiblings (i :: up) ↔ ∃ j, i < j ∧ q = j :: up ∧ t.Inside q := by
  simp only [laterSiblings,List.mem_map,List.mem_range'_1]
  constructor
  · rintro ⟨j,⟨more,less⟩,rfl⟩
    exact ⟨j,more,rfl,inside_child.mpr (by omega)⟩
  · rintro ⟨j,more,rfl,inside⟩
    have bound := inside_child.mp inside
    exact ⟨j,⟨more,by omega⟩,rfl⟩

theorem laterSiblings_rising (t : Rose α) (a : Address) : (t.laterSiblings a).Pairwise Before := by
  cases a with
  | nil => exact List.Pairwise.nil
  | cons i up =>
    refine List.pairwise_map.mpr (List.Pairwise.imp ?_ List.pairwise_lt_range')
    intro j k less
    exact (later_sibling [] [] less up).before

theorem mem_earlierSiblings {i : Nat} {up q : Address} :
    q ∈ earlierSiblings (i :: up) ↔ ∃ j, j < i ∧ q = j :: up := by
  simp [earlierSiblings,eq_comm]

theorem earlierSiblings_falling (a : Address) : (earlierSiblings a).Pairwise fun p q => Before q p := by
  cases a with
  | nil => exact List.Pairwise.nil
  | cons i up =>
    refine List.pairwise_map.mpr (List.pairwise_reverse.mpr (List.Pairwise.imp ?_ List.pairwise_lt_range))
    intro j k less
    exact (later_sibling [] [] less up).before

theorem mem_following {a q : Address} : q ∈ t.following a ↔ Branches a q ∧ t.Inside q := by
  induction a with
  | nil => simp [following,Branches]
  | cons i up ih =>
    simp only [following,List.mem_append,List.mem_flatMap,ih,mem_subtree,mem_laterSiblings]
    constructor
    · rintro (⟨_,⟨j,more,rfl,_⟩,⟨w,rfl⟩,inside⟩ | ⟨branches,inside⟩)
      · exact ⟨later_sibling [] w more up,inside⟩
      · exact ⟨branches_below [i] branches,inside⟩
    · rintro ⟨⟨v,w,c,k,j,same,rfl,less⟩,inside⟩
      cases v with
      | nil =>
        obtain ⟨rfl,rfl⟩ := List.cons.inj same
        exact .inl ⟨j :: up,⟨j,less,rfl,inside.above⟩,List.suffix_append w _,inside⟩
      | cons l v =>
        obtain ⟨rfl,rfl⟩ := List.cons.inj same
        exact .inr ⟨⟨v,w,c,k,j,rfl,rfl,less⟩,inside⟩

theorem following_rising (t : Rose α) (a : Address) : (t.following a).Pairwise Before := by
  induction a with
  | nil => exact List.Pairwise.nil
  | cons i up ih =>
    refine List.pairwise_append.mpr ⟨?_,ih,?_⟩
    · refine List.pairwise_flatMap.mpr ⟨fun s _ => subtree_rising t s,?_⟩
      refine (laterSiblings_rising t (i :: up)).imp_of_mem ?_
      intro x y here there before p below q below'
      obtain ⟨j,_,rfl,_⟩ := mem_laterSiblings.mp here
      obtain ⟨k,_,rfl,_⟩ := mem_laterSiblings.mp there
      obtain ⟨⟨v,rfl⟩,_⟩ := mem_subtree.mp below
      obtain ⟨⟨w,rfl⟩,_⟩ := mem_subtree.mp below'
      have less : j < k := by
        by_contra more
        rcases Nat.lt_or_eq_of_le (Nat.le_of_not_lt more) with less | rfl
        · exact before_asymm before (later_sibling [] [] less up).before
        · exact before_irrefl _ before
      exact (later_sibling v w less up).before
    · intro p here q later
      obtain ⟨s,sibling,below⟩ := List.mem_flatMap.mp here
      obtain ⟨j,_,rfl,_⟩ := mem_laterSiblings.mp sibling
      obtain ⟨⟨v,rfl⟩,_⟩ := mem_subtree.mp below
      obtain ⟨branches,_⟩ := mem_following.mp later
      have grown := branches_below (v ++ [j]) branches
      rw [List.append_assoc] at grown
      exact grown.before

theorem mem_preceding {a q : Address} (inside : t.Inside a) :
    q ∈ t.preceding a ↔ Branches q a ∧ t.Inside q := by
  induction a with
  | nil => simp [preceding,Branches]
  | cons i up ih =>
    have above : t.Inside up := inside.above (w := [i])
    simp only [preceding,List.mem_append,List.mem_flatMap,ih above,List.mem_reverse,mem_subtree,
      mem_earlierSiblings]
    constructor
    · rintro (⟨_,⟨j,less,rfl⟩,⟨w,rfl⟩,inside⟩ | ⟨branches,inside⟩)
      · exact ⟨later_sibling w [] less up,inside⟩
      · exact ⟨below_branches [i] branches,inside⟩
    · rintro ⟨⟨v,w,c,j,k,rfl,same,less⟩,there⟩
      cases w with
      | nil =>
        obtain ⟨rfl,rfl⟩ := List.cons.inj same
        exact .inl ⟨j :: up,⟨j,less,rfl⟩,List.suffix_append v _,there⟩
      | cons l w =>
        obtain ⟨rfl,rfl⟩ := List.cons.inj same
        exact .inr ⟨⟨v,w,c,j,k,rfl,rfl,less⟩,there⟩

theorem preceding_falling {a : Address} (inside : t.Inside a) :
    (t.preceding a).Pairwise fun p q => Before q p := by
  induction a with
  | nil => exact List.Pairwise.nil
  | cons i up ih =>
    have above : t.Inside up := inside.above (w := [i])
    refine List.pairwise_append.mpr ⟨?_,ih above,?_⟩
    · refine List.pairwise_flatMap.mpr ⟨fun s _ => List.pairwise_reverse.mpr (subtree_rising t s),?_⟩
      refine (earlierSiblings_falling (i :: up)).imp_of_mem ?_
      intro x y here there before p below q below'
      obtain ⟨j,_,rfl⟩ := mem_earlierSiblings.mp here
      obtain ⟨k,_,rfl⟩ := mem_earlierSiblings.mp there
      obtain ⟨⟨v,rfl⟩,_⟩ := mem_subtree.mp (List.mem_reverse.mp below)
      obtain ⟨⟨w,rfl⟩,_⟩ := mem_subtree.mp (List.mem_reverse.mp below')
      have less : k < j := by
        by_contra more
        rcases Nat.lt_or_eq_of_le (Nat.le_of_not_lt more) with less | rfl
        · exact before_asymm before (later_sibling [] [] less up).before
        · exact before_irrefl _ before
      exact (later_sibling w v less up).before
    · intro p here q earlier
      obtain ⟨s,sibling,below⟩ := List.mem_flatMap.mp here
      obtain ⟨j,_,rfl⟩ := mem_earlierSiblings.mp sibling
      obtain ⟨⟨v,rfl⟩,_⟩ := mem_subtree.mp (List.mem_reverse.mp below)
      obtain ⟨branches,_⟩ := (mem_preceding above).mp earlier
      have grown := below_branches (v ++ [j]) branches
      rw [List.append_assoc] at grown
      exact grown.before

end Rose

end Sharko.Library
