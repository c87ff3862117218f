import Mathlib.Data.Finmap
import Mathlib.Data.Finset.Max
import Mathlib.Data.Finset.Sort
import Mathlib.Algebra.BigOperators.Group.Multiset.Basic

/-! Finite maps to one type of value: lookups after an update as case
distinctions, the sum of a weight over the values, and the smallest key of a map
with ordered keys. -/

namespace Sharko.Library

abbrev FiniteMap (α β : Type*) := Finmap fun _ : α => β

namespace FiniteMap

variable {α β : Type*} [DecidableEq α]

theorem lookup_insert_if (m : FiniteMap α β) (k j : α) (v : β) :
    (m.insert k v).lookup j = if j = k then some v else m.lookup j := by
  split_ifs with same
  · subst same
    exact Finmap.lookup_insert m
  · exact Finmap.lookup_insert_of_ne m same

theorem lookup_erase_if (m : FiniteMap α β) (k j : α) :
    (m.erase k).lookup j = if j = k then none else m.lookup j := by
  split_ifs with same
  · subst same
    exact Finmap.lookup_erase j m
  · exact Finmap.lookup_erase_ne same

theorem erase_absent (m : FiniteMap α β) (k : α) (absent : m.lookup k = none) : m.erase k = m := by
  apply Finmap.ext_lookup
  intro j
  rw [lookup_erase_if]
  split_ifs with same
  · rw [same,absent]
  · rfl

theorem insert_erase (m : FiniteMap α β) (k : α) (v : β) (present : m.lookup k = some v) :
    Finmap.insert k v (m.erase k) = m := by
  apply Finmap.ext_lookup
  intro j
  rw [lookup_insert_if,lookup_erase_if]
  split_ifs with same
  · rw [same,present]
  · rfl

def total (weight : β → Nat) (m : FiniteMap α β) : Nat :=
  (m.entries.map fun entry => weight entry.2).sum

omit [DecidableEq α] in
@[simp] theorem total_empty (weight : β → Nat) : total weight (∅ : FiniteMap α β) = 0 := rfl

theorem total_split (weight : β → Nat) (m : FiniteMap α β) (k : α) :
    total weight m = (m.lookup k).elim 0 weight + total weight (m.erase k) := by
  cases found : m.lookup k with
  | none => simp [erase_absent m k found]
  | some v =>
    have absent : k ∉ m.erase k := Finmap.notMem_erase_self
    have entries := Finmap.entries_insert_of_notMem (b := v) absent
    rw [insert_erase m k v found] at entries
    simp [total,entries]

theorem total_change (weight : β → Nat) {m m' : FiniteMap α β} (k : α)
    (others : ∀ j, j ≠ k → m'.lookup j = m.lookup j) :
    total weight m' + (m.lookup k).elim 0 weight = total weight m + (m'.lookup k).elim 0 weight := by
  have rest : m'.erase k = m.erase k := by
    apply Finmap.ext_lookup
    intro j
    rw [lookup_erase_if,lookup_erase_if]
    split_ifs with same
    · rfl
    · exact others j same
  have before := total_split weight m k
  have after := total_split weight m' k
  rw [rest] at after
  omega

theorem weight_le_total (weight : β → Nat) {m : FiniteMap α β} {k : α} {v : β}
    (present : m.lookup k = some v) : weight v ≤ total weight m := by
  have split := total_split weight m k
  simp only [present,Option.elim_some] at split
  omega

theorem total_zero (weight : β → Nat) {m : FiniteMap α β}
    (none : ∀ k v, m.lookup k = some v → weight v = 0) : total weight m = 0 := by
  apply Multiset.sum_eq_zero
  intro w member
  obtain ⟨⟨k,v⟩,inside,rfl⟩ := Multiset.mem_map.mp member
  exact none k v (Finmap.lookup_eq_some_iff.mpr inside)

variable {γ : Type*} [LinearOrder γ]

def popFirst (m : FiniteMap γ β) : Option ((γ × β) × FiniteMap γ β) :=
  match m.keys.min with
  | none => none
  | some k => (m.lookup k).map fun v => ((k,v),m.erase k)

theorem popFirst_none {m : FiniteMap γ β} (empty : popFirst m = none) (k : γ) : m.lookup k = none := by
  unfold popFirst at empty
  split at empty
  · rename_i nothing
    have noKeys : m.keys = ∅ := Finset.min_eq_top.mp nothing
    rw [Finmap.lookup_eq_none]
    intro member
    exact absurd (Finmap.mem_keys.mpr member) (by simp [noKeys])
  · rename_i first smallest
    have member := Finmap.mem_keys.mp (Finset.mem_of_min smallest)
    obtain ⟨v,found⟩ := Finmap.mem_iff.mp member
    simp [found] at empty

theorem popFirst_some {m rest : FiniteMap γ β} {k : γ} {v : β}
    (popped : popFirst m = some ((k,v),rest)) : m.lookup k = some v ∧ rest = m.erase k := by
  unfold popFirst at popped
  split at popped
  · cases popped
  · obtain ⟨w,found,same⟩ := Option.map_eq_some_iff.mp popped
    cases same
    exact ⟨found,rfl⟩

theorem card_erase {m : FiniteMap α β} {k : α} {v : β} (present : m.lookup k = some v) :
    (m.erase k).keys.card + 1 = m.keys.card := by
  rw [Finmap.keys_erase]
  exact Finset.card_erase_add_one (Finmap.mem_keys.mpr (Finmap.mem_of_lookup_eq_some present))

def inOrder (m : FiniteMap γ β) : List β := (m.keys.sort (· ≤ ·)).filterMap m.lookup

theorem inOrder_empty {m : FiniteMap γ β} (empty : ∀ k,m.lookup k = none) : inOrder m = [] := by
  apply List.filterMap_eq_nil_iff.mpr
  intro k _
  exact empty k

theorem mem_inOrder {m : FiniteMap γ β} {v : β} : v ∈ inOrder m ↔ ∃ k,m.lookup k = some v := by
  unfold inOrder
  rw [List.mem_filterMap]
  constructor
  · intro listed
    obtain ⟨k,-,here⟩ := listed
    exact ⟨k,here⟩
  · intro listed
    obtain ⟨k,here⟩ := listed
    have member := Finmap.mem_keys.mpr (Finmap.mem_of_lookup_eq_some here)
    exact ⟨k,(Finset.mem_sort _).mpr member,here⟩

theorem sort_insert_last {s : Finset γ} {k : γ} (above : ∀ j ∈ s,j < k) :
    (insert k s).sort (· ≤ ·) = s.sort (· ≤ ·) ++ [k] := by
  have new : k ∉ s := fun inside => lt_irrefl k (above k inside)
  have nodup : (s.sort (· ≤ ·) ++ [k]).Nodup := by
    rw [List.nodup_append]
    refine ⟨Finset.sort_nodup _ _,List.nodup_singleton k,fun j listed i last same => ?_⟩
    rw [List.mem_singleton.mp last] at same
    exact new (same ▸ (Finset.mem_sort _).mp listed)
  have whole : (s.sort (· ≤ ·) ++ [k]).toFinset = insert k s := by
    rw [List.toFinset_append,Finset.sort_toFinset,List.toFinset_cons,List.toFinset_nil,Finset.union_comm]
    rfl
  rw [← whole]
  apply (List.toFinset_sort _ nodup).mpr
  rw [List.pairwise_append]
  refine ⟨Finset.pairwise_sort _ _,List.pairwise_singleton _ k,fun j listed i last => ?_⟩
  rw [List.mem_singleton.mp last]
  exact (above j ((Finset.mem_sort _).mp listed)).le

theorem inOrder_insert_last {m : FiniteMap γ β} {k : γ} (above : ∀ j v,m.lookup j = some v → j < k)
    (v : β) : inOrder (m.insert k v) = inOrder m ++ [v] := by
  have bound : ∀ j ∈ m.keys,j < k := by
    intro j inside
    obtain ⟨w,here⟩ := Finmap.mem_iff.mp (Finmap.mem_keys.mp inside)
    exact above j w here
  have kept : (m.keys.sort (· ≤ ·)).filterMap (m.insert k v).lookup =
      (m.keys.sort (· ≤ ·)).filterMap m.lookup := by
    apply List.filterMap_congr
    intro j listed
    have other : j ≠ k := (bound j ((Finset.mem_sort _).mp listed)).ne
    rw [lookup_insert_if,if_neg other]
  have keys : (m.insert k v).keys = insert k m.keys := by
    ext j
    rw [Finmap.mem_keys,Finmap.mem_insert,Finset.mem_insert,Finmap.mem_keys]
  rw [inOrder,keys,sort_insert_last bound,List.filterMap_append,kept]
  simp [inOrder]

theorem inOrder_popFirst {m rest : FiniteMap γ β} {k : γ} {v : β}
    (popped : popFirst m = some ((k,v),rest)) : inOrder m = v :: inOrder rest := by
  have least : ∀ j ∈ m.keys,k ≤ j := by
    intro j inside
    unfold popFirst at popped
    split at popped
    · cases popped
    next first smallest =>
      obtain ⟨w,-,same⟩ := Option.map_eq_some_iff.mp popped
      cases same
      exact Finset.min_le_of_eq inside smallest
  obtain ⟨here,rfl⟩ := popFirst_some popped
  have member := Finmap.mem_keys.mpr (Finmap.mem_of_lookup_eq_some here)
  have fewer : (m.erase k).keys = m.keys.erase k := Finmap.keys_erase k m
  have new : k ∉ (m.erase k).keys := by
    rw [fewer]
    exact Finset.notMem_erase k m.keys
  have keys : m.keys = insert k (m.erase k).keys := by
    rw [fewer,Finset.insert_erase member]
  have first : ∀ j ∈ (m.erase k).keys,k ≤ j := by
    intro j inside
    rw [fewer] at inside
    exact least j (Finset.mem_of_mem_erase inside)
  have kept : ((m.erase k).keys.sort (· ≤ ·)).filterMap m.lookup = inOrder (m.erase k) := by
    apply List.filterMap_congr
    intro j listed
    have other : j ≠ k := by
      intro same
      rw [same] at listed
      exact new ((Finset.mem_sort _).mp listed)
    rw [lookup_erase_if,if_neg other]
  rw [inOrder,keys,Finset.sort_insert _ first new,List.filterMap_cons,here,kept]

end FiniteMap

end Sharko.Library
