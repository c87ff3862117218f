import Mathlib

/-! Lists of keys with values in which the first value of a key counts, and their stable sort by
descending keys. -/

namespace Sharko.Library.KeyLists

variable {κ β : Type*} [DecidableEq κ]

def entry (l : List (κ × β)) (k : κ) : Option β := (l.find? (·.1 = k)).map Prod.snd

theorem entry_eq_head (l : List (κ × β)) (k : κ) : entry l k = ((l.filter (·.1 = k)).head?).map Prod.snd := by
  rw [entry,List.head?_filter]

theorem entry_append (l m : List (κ × β)) (k : κ) : entry (l ++ m) k = (entry l k).or (entry m k) := by
  rw [entry,List.find?_append,Option.map_or]
  rfl

variable [LinearOrder κ]

def descending (l : List (κ × β)) : List (κ × β) := l.insertionSort fun a b => b.1 ≤ a.1

def ascending (l : List (κ × β)) : List (κ × β) := l.insertionSort fun a b => a.1 ≤ b.1

def Sorted (l : List (κ × β)) : Prop := l.Pairwise fun a b => b.1 ≤ a.1

omit [DecidableEq κ] in
theorem mem_descending {l : List (κ × β)} {e : κ × β} : e ∈ descending l ↔ e ∈ l := List.mem_insertionSort _

omit [DecidableEq κ] in
theorem ascending_perm (l : List (κ × β)) : (ascending l).Perm l := List.perm_insertionSort _ l

omit [DecidableEq κ] in
theorem descending_sorted (l : List (κ × β)) : Sorted (descending l) :=
  have : Std.Total fun a b : κ × β => b.1 ≤ a.1 := ⟨fun a b => le_total b.1 a.1⟩
  have : IsTrans (κ × β) fun a b => b.1 ≤ a.1 := ⟨fun _ _ _ ab bc => bc.trans ab⟩
  List.pairwise_insertionSort _ l

omit [DecidableEq κ] in
theorem ascending_sorted (l : List (κ × β)) : (ascending l).Pairwise fun a b => a.1 ≤ b.1 :=
  have : Std.Total fun a b : κ × β => a.1 ≤ b.1 := ⟨fun a b => le_total a.1 b.1⟩
  have : IsTrans (κ × β) fun a b => a.1 ≤ b.1 := ⟨fun _ _ _ => le_trans⟩
  List.pairwise_insertionSort _ l

/-- The values of one key keep their order. -/
theorem filter_descending (l : List (κ × β)) (k : κ) :
    (descending l).filter (·.1 = k) = l.filter (·.1 = k) := by
  have ofKey : ∀ e ∈ l.filter (·.1 = k),e.1 = k := fun e mem => of_decide_eq_true (List.mem_filter.mp mem).2
  have kept : (l.filter (·.1 = k)).Sublist (descending l) := by
    refine List.sublist_insertionSort ?_ List.filter_sublist
    exact List.pairwise_of_forall_mem_list fun a inA b inB => ((ofKey b inB).trans (ofKey a inA).symm).le
  have sub := kept.filter (·.1 = k)
  rw [List.filter_filter] at sub
  simp only [Bool.and_self] at sub
  refine (sub.eq_of_length ?_).symm
  exact (((List.perm_insertionSort _ l).filter _).length_eq).symm

theorem entry_descending (l : List (κ × β)) (k : κ) : entry (descending l) k = entry l k := by
  rw [entry_eq_head,filter_descending,← entry_eq_head]

end Sharko.Library.KeyLists
