import Mathlib

/-! Binary search in a list, and lists sorted strictly by a rank that are kept
sorted by inserting and deleting at the places a search finds. -/

namespace Sharko.Library.Bisection

variable {α R : Type*}

def search (before : α → Bool) (rows : List α) : Nat → Nat → Nat → Nat
  | 0,lo,_ => lo
  | fuel + 1,lo,hi =>
    if lo < hi then
      let mid := (lo + hi) / 2
      if rows[mid]?.any before then search before rows fuel (mid + 1) hi
      else search before rows fuel lo mid
    else lo

def bisect (before : α → Bool) (rows : List α) : Nat := search before rows rows.length 0 rows.length

def Split (before : α → Bool) (rows : List α) : Prop :=
  rows.Pairwise fun first second => before second → before first

theorem Split.eq_append {before : α → Bool} {rows : List α} (split : Split before rows) :
    rows = rows.filter before ++ rows.filter fun row => !before row := by
  induction rows with
  | nil => rfl
  | cons row rest ih =>
    have tail := ih split.of_cons
    cases first : before row with
    | true =>
      simp only [List.filter_cons,first,if_true,Bool.not_true,Bool.false_eq_true,if_false,
        List.cons_append]
      rw [← tail]
    | false =>
      have none : rest.filter before = [] := by
        rw [List.filter_eq_nil_iff]
        intro other mem passes
        have := (List.pairwise_cons.mp split).1 other mem passes
        simp [first] at this
      have all : (rest.filter fun row => !before row) = rest := by
        rw [none] at tail
        exact tail.symm
      simp [first,none,all]

theorem search_eq {before : α → Bool} {front back : List α} (yes : ∀ row ∈ front, before row)
    (no : ∀ row ∈ back, before row = false) {fuel lo hi : Nat} (above : lo ≤ front.length)
    (below : front.length ≤ hi) (bounded : hi ≤ (front ++ back).length) (enough : hi ≤ lo + fuel) :
    search before (front ++ back) fuel lo hi = front.length := by
  induction fuel generalizing lo hi with
  | zero => simp only [search]; omega
  | succ fuel ih =>
    rw [search]
    split
    case isFalse => omega
    case isTrue room =>
      have inside : (lo + hi) / 2 < (front ++ back).length := by omega
      rcases Nat.lt_or_ge ((lo + hi) / 2) front.length with early | late
      · have : (front ++ back)[(lo + hi) / 2]?.any before = true := by
          rw [List.getElem?_append_left early,List.getElem?_eq_getElem early]
          exact yes _ (List.getElem_mem early)
        rw [if_pos this]
        exact ih (by omega) below bounded (by omega)
      · have there : (lo + hi) / 2 - front.length < back.length := by
          simp only [List.length_append] at inside
          omega
        have : (front ++ back)[(lo + hi) / 2]?.any before = false := by
          rw [List.getElem?_append_right late,List.getElem?_eq_getElem there]
          exact no _ (List.getElem_mem there)
        simp only [this,Bool.false_eq_true,if_false]
        exact ih above late (by omega) (by omega)

theorem bisect_append {before : α → Bool} {front back : List α} (yes : ∀ row ∈ front, before row)
    (no : ∀ row ∈ back, before row = false) : bisect before (front ++ back) = front.length :=
  search_eq yes no (Nat.zero_le _) (by simp) (Nat.le_refl _) (by simp)

theorem bisect_eq_filter {before : α → Bool} {rows : List α} (split : Split before rows) :
    bisect before rows = (rows.filter before).length := by
  conv_lhs => rw [split.eq_append]
  apply bisect_append
  · intro row mem
    exact (List.mem_filter.mp mem).2
  · intro row mem
    simpa using (List.mem_filter.mp mem).2

theorem Split.take {before : α → Bool} {rows : List α} (split : Split before rows) :
    rows.take (bisect before rows) = rows.filter before := by
  calc
    rows.take (bisect before rows) = (rows.filter before ++ rows.filter fun row => !before row).take
        (rows.filter before).length := by rw [← split.eq_append,bisect_eq_filter split]
    _ = rows.filter before := List.take_left

theorem Split.drop {before : α → Bool} {rows : List α} (split : Split before rows) :
    rows.drop (bisect before rows) = rows.filter fun row => !before row := by
  calc
    rows.drop (bisect before rows) = (rows.filter before ++ rows.filter fun row => !before row).drop
        (rows.filter before).length := by rw [← split.eq_append,bisect_eq_filter split]
    _ = rows.filter fun row => !before row := List.drop_left

theorem Split.sublist {before : α → Bool} {rows part : List α} (split : Split before rows)
    (sub : part.Sublist rows) : Split before part :=
  List.Pairwise.sublist sub split

theorem slice_eq_filter {low high : α → Bool} {rows : List α} (first : Split low rows)
    (second : Split high rows) : (rows.take (max (bisect low rows) (bisect high rows))).drop (bisect low rows) =
      rows.filter fun row => high row && !low row := by
  have rest : Split high (rows.filter fun row => !low row) := second.sublist List.filter_sublist
  rw [List.drop_take,first.drop,← List.filter_filter,← rest.take]
  congr 1
  rw [bisect_eq_filter rest,bisect_eq_filter first,bisect_eq_filter second]
  have whole : (rows.filter high).length = ((rows.filter low).filter high).length +
      ((rows.filter fun row => !low row).filter high).length := by
    conv_lhs => rw [first.eq_append]
    rw [List.filter_append,List.length_append]
  have fewer := List.length_filter_le high (rows.filter low)
  rcases List.eq_nil_or_concat' ((rows.filter fun row => !low row).filter high) with none | ⟨_,row,some⟩
  · rw [none] at whole ⊢
    simp only [List.length_nil,Nat.add_zero] at whole ⊢
    omega
  · -- the second place is behind the first one: what is before the first is before both
    have passed : row ∈ (rows.filter fun row => !low row).filter high := by simp [some]
    obtain ⟨behind,here⟩ := List.mem_filter.mp passed
    have split : Split high (rows.filter low ++ rows.filter fun row => !low row) :=
      first.eq_append ▸ second
    have all : (rows.filter low).filter high = rows.filter low := by
      rw [List.filter_eq_self]
      intro other mem
      exact (List.pairwise_append.mp split).2.2 other mem row behind here
    rw [all] at whole
    omega

section both
variable {a b : α → Bool} {rows : List α}

theorem Split.nested (first : Split a rows) (second : Split b rows)
    (le : bisect a rows ≤ bisect b rows) : ∀ row ∈ rows, a row → b row := by
  intro row mem passed
  have front : row ∈ rows.take (bisect a rows) := by
    rw [first.take]
    exact List.mem_filter.mpr ⟨mem,passed⟩
  have later := List.take_subset_take_left rows le front
  rw [second.take] at later
  exact (List.mem_filter.mp later).2

theorem bisect_congr (first : Split a rows) (second : Split b rows)
    (same : ∀ row ∈ rows, a row = b row) : bisect a rows = bisect b rows := by
  rw [bisect_eq_filter first,bisect_eq_filter second,List.filter_congr same]

theorem Split.or (first : Split a rows) (second : Split b rows) : Split (fun row => a row || b row) rows ∧
      bisect (fun row => a row || b row) rows = max (bisect a rows) (bisect b rows) := by
  have split : Split (fun row => a row || b row) rows := by
    refine (List.Pairwise.and first second).imp ?_
    rintro x y ⟨left,right⟩ either
    rcases Bool.or_eq_true_iff.mp either with passed | passed
    · exact Bool.or_eq_true_iff.mpr (.inl (left passed))
    · exact Bool.or_eq_true_iff.mpr (.inr (right passed))
  refine ⟨split,?_⟩
  rcases le_total (bisect a rows) (bisect b rows) with le | le
  · rw [max_eq_right le]
    refine bisect_congr split second fun row mem => ?_
    have := first.nested second le row mem
    cases here : a row <;> simp_all
  · rw [max_eq_left le]
    refine bisect_congr split first fun row mem => ?_
    have := second.nested first le row mem
    cases here : b row <;> simp_all

theorem Split.and (first : Split a rows) (second : Split b rows) : Split (fun row => a row && b row) rows ∧
      bisect (fun row => a row && b row) rows = min (bisect a rows) (bisect b rows) := by
  have split : Split (fun row => a row && b row) rows := by
    refine (List.Pairwise.and first second).imp ?_
    rintro x y ⟨left,right⟩ passed
    obtain ⟨one,other⟩ := Bool.and_eq_true_iff.mp passed
    exact Bool.and_eq_true_iff.mpr ⟨left one,right other⟩
  refine ⟨split,?_⟩
  rcases le_total (bisect a rows) (bisect b rows) with le | le
  · rw [min_eq_left le]
    refine bisect_congr split first fun row mem => ?_
    have := first.nested second le row mem
    cases here : a row <;> simp_all
  · rw [min_eq_right le]
    refine bisect_congr split second fun row mem => ?_
    have := second.nested first le row mem
    cases here : b row <;> simp_all

end both

section Sorted

variable [LinearOrder R] (rank : α → R)

def Sorted (rows : List α) : Prop := rows.Pairwise fun first second => rank first < rank second

variable {rank}

theorem sorted_cons {row : α} {rows : List α} :
    Sorted rank (row :: rows) ↔ (∀ b ∈ rows, rank row < rank b) ∧ Sorted rank rows :=
  List.pairwise_cons

end Sorted

end Sharko.Library.Bisection
