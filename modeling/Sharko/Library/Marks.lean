import Mathlib.Data.List.Basic
import Mathlib.Data.List.Flatten
import Mathlib.Data.List.Infix

/-! A mark at the front of a sequence. Who gets the sequence in pieces and takes the mark off
each of them, and perhaps once more off what remains, has the same in the end as who takes it
off the whole only under a condition on the pieces. -/

namespace Sharko.Library.Marks

variable {α β : Type*}

def Marked (mark piece : List α) : Prop := mark ≠ [] ∧ mark <+: piece

variable [DecidableEq α] [DecidableEq β]

instance (mark piece : List α) : Decidable (Marked mark piece) := inferInstanceAs (Decidable (_ ∧ _))

def unmark (mark piece : List α) : List α := if Marked mark piece then piece.drop mark.length else piece

def kept (mark : List α) (stays : Bool) (pieces : List (List α)) : List α :=
  let remains := (pieces.map (unmark mark)).flatten
  if stays then remains else unmark mark remains

/-- The pieces that are not empty lose no mark that the whole keeps. Only the first one is
marked; or it is no more than the mark, and the second one has the mark that the whole loses as well. -/
def Same (mark : List α) (stays : Bool) (pieces : List (List α)) : Prop :=
  match pieces.filter (· ≠ []) with
  | [] => True
  | first :: later => (∀ piece ∈ later,¬ Marked mark piece) ∨
    stays = false ∧ first = mark ∧ ∃ second rest,later = second :: rest ∧ Marked mark second ∧
      ¬ Marked mark (unmark mark second) ∧ ∀ piece ∈ rest,¬ Marked mark piece

section single

variable {m : α}

omit [DecidableEq α] in
@[simp] theorem marked_nil : ¬ Marked [m] [] := by simp [Marked]

omit [DecidableEq α] in
@[simp] theorem marked_cons {a : α} {rest : List α} : Marked [m] (a :: rest) ↔ a = m := by
  simp [Marked,eq_comm]

@[simp] theorem unmark_nil : unmark [m] [] = [] := rfl

theorem unmark_cons {a : α} {rest : List α} : unmark [m] (a :: rest) = if a = m then rest else a :: rest := by
  simp [unmark]

theorem unmark_unmarked {mark piece : List α} (bare : ¬ Marked mark piece) : unmark mark piece = piece :=
  if_neg bare

theorem marked_eq {piece : List α} (marked : Marked [m] piece) : piece = m :: unmark [m] piece := by
  cases piece with
  | nil => exact absurd marked marked_nil
  | cons a rest =>
    rw [marked_cons] at marked
    simp [unmark_cons,marked]

theorem unmark_append {first second : List α} (inhabited : first ≠ []) :
    unmark [m] (first ++ second) = unmark [m] first ++ second := by
  cases first with
  | nil => exact absurd rfl inhabited
  | cons a rest =>
    rw [List.cons_append,unmark_cons,unmark_cons]
    split <;> rfl

omit [DecidableEq α] in
theorem marked_append {first second : List α} (inhabited : first ≠ []) :
    Marked [m] (first ++ second) ↔ Marked [m] first := by
  cases first with
  | nil => exact absurd rfl inhabited
  | cons a rest => rw [List.cons_append,marked_cons,marked_cons]

theorem count_unmark (piece : List α) :
    (unmark [m] piece).count m + (if Marked [m] piece then 1 else 0) = piece.count m := by
  by_cases marked : Marked [m] piece
  · rw [if_pos marked]
    conv_rhs => rw [marked_eq marked,List.count_cons_self]
  · rw [if_neg marked,unmark_unmarked marked,Nat.add_zero]

theorem count_unmark_flatten (pieces : List (List α)) :
    (pieces.map (unmark [m])).flatten.count m + pieces.countP (Marked [m] ·) = pieces.flatten.count m := by
  induction pieces with
  | nil => rfl
  | cons piece rest ih =>
    have here := count_unmark (m := m) piece
    rw [List.map_cons,List.flatten_cons,List.flatten_cons,List.count_append,List.count_append,
      List.countP_cons]
    simp only [decide_eq_true_eq]
    omega

theorem unmark_flatten_bare {pieces : List (List α)} (bare : ∀ piece ∈ pieces,¬ Marked [m] piece) :
    (pieces.map (unmark [m])).flatten = pieces.flatten := by
  rw [List.map_congr_left fun piece listed => unmark_unmarked (bare piece listed),List.map_id']

omit [DecidableEq α] in
theorem flatten_bare {pieces : List (List α)} (inhabited : ∀ piece ∈ pieces,piece ≠ [])
    (bare : ∀ piece ∈ pieces,¬ Marked [m] piece) : ¬ Marked [m] pieces.flatten := by
  cases pieces with
  | nil => exact marked_nil
  | cons piece rest =>
    rw [List.flatten_cons,marked_append (inhabited piece List.mem_cons_self)]
    exact bare piece List.mem_cons_self

theorem unmark_filter (pieces : List (List α)) :
    ((pieces.filter (· ≠ [])).map (unmark [m])).flatten = (pieces.map (unmark [m])).flatten := by
  induction pieces with
  | nil => rfl
  | cons piece rest ih =>
    rw [List.filter_cons]
    split
    next => rw [List.map_cons,List.flatten_cons,ih,List.map_cons,List.flatten_cons]
    next empty =>
      have empty : piece = [] := by simpa using empty
      rw [ih,empty]
      rfl

omit [DecidableEq α] in
theorem flatten_filter (pieces : List (List α)) : (pieces.filter (· ≠ [])).flatten = pieces.flatten := by
  induction pieces with
  | nil => rfl
  | cons piece rest ih =>
    rw [List.filter_cons]
    split
    next => rw [List.flatten_cons,ih,List.flatten_cons]
    next empty =>
      have empty : piece = [] := by simpa using empty
      rw [ih,empty]
      rfl

theorem kept_single (stays : Bool) (whole : List α) : kept [m] stays [whole] =
    if stays then unmark [m] whole else unmark [m] (unmark [m] whole) := by
  simp [kept]

theorem Same.kept {stays : Bool} {pieces : List (List α)} (same : Same [m] stays pieces) :
    kept [m] stays pieces = kept [m] stays [pieces.flatten] := by
  rw [kept_single]
  unfold Marks.kept
  dsimp only
  rw [← unmark_filter,← flatten_filter pieces]
  unfold Same at same
  have inhabited : ∀ piece ∈ pieces.filter (· ≠ []),piece ≠ [] := by
    intro piece listed
    simpa using (List.mem_filter.mp listed).2
  generalize pieces.filter (· ≠ []) = pieces at same inhabited
  cases pieces with
  | nil => simp
  | cons first later =>
    have full := inhabited first List.mem_cons_self
    have others : ∀ piece ∈ later,piece ≠ [] :=
      fun piece listed => inhabited piece (List.mem_cons_of_mem _ listed)
    rw [List.map_cons,List.flatten_cons,List.flatten_cons,unmark_append full]
    rcases same with bare | ⟨rfl,rfl,second,rest,rfl,marked,once,bare⟩
    · rw [unmark_flatten_bare bare]
    · have others' : ∀ piece ∈ rest,piece ≠ [] :=
        fun piece listed => others piece (List.mem_cons_of_mem _ listed)
      have empty : unmark [m] [m] = ([] : List α) := by simp [unmark_cons]
      have single : ¬ Marked [m] (unmark [m] second ++ rest.flatten) := by
        cases after : unmark [m] second with
        | nil => exact flatten_bare others' bare
        | cons a l =>
          rw [marked_append (List.cons_ne_nil a l),← after]
          exact once
      rw [empty,List.map_cons,List.flatten_cons,List.flatten_cons,List.nil_append,List.nil_append,
        unmark_flatten_bare bare]
      simp only [Bool.false_eq_true,if_false]
      rw [unmark_unmarked single,unmark_append (others second List.mem_cons_self)]

theorem same_of_count {stays : Bool} {pieces : List (List α)}
    (equal : (kept [m] stays pieces).count m = (kept [m] stays [pieces.flatten]).count m) :
    Same [m] stays pieces := by
  rw [kept_single] at equal
  unfold Marks.kept at equal
  dsimp only at equal
  rw [← unmark_filter,← flatten_filter pieces] at equal
  unfold Same
  have inhabited : ∀ piece ∈ pieces.filter (· ≠ []),piece ≠ [] := by
    intro piece listed
    simpa using (List.mem_filter.mp listed).2
  generalize pieces.filter (· ≠ []) = pieces at equal inhabited
  cases pieces with
  | nil => exact trivial
  | cons first later =>
    have full := inhabited first List.mem_cons_self
    rw [List.map_cons,List.flatten_cons,List.flatten_cons,unmark_append full] at equal
    have lost := count_unmark_flatten (m := m) later
    have none_or : later.countP (Marked [m] ·) = 0 → ∀ piece ∈ later,¬ Marked [m] piece := by
      intro zero piece listed
      simpa using List.countP_eq_zero.mp zero piece listed
    cases stays with
    | true =>
      simp only [if_true,List.count_append] at equal
      exact .inl (none_or (by omega))
    | false =>
      simp only [Bool.false_eq_true,if_false] at equal
      have apart := count_unmark (m := m) (unmark [m] first ++ (later.map (unmark [m])).flatten)
      have whole := count_unmark (m := m) (unmark [m] first ++ later.flatten)
      rw [List.count_append] at apart whole
      by_cases bare : later.countP (Marked [m] ·) = 0
      · exact .inl (none_or bare)
      · right
        cases after : unmark [m] first with
        | cons a l =>
          rw [after] at apart whole equal
          have agree : Marked [m] (a :: l ++ (later.map (unmark [m])).flatten) ↔
              Marked [m] (a :: l ++ later.flatten) := by
            rw [marked_append (List.cons_ne_nil a l),marked_append (List.cons_ne_nil a l)]
          simp only [agree] at apart
          omega
        | nil =>
          rw [after,List.nil_append] at apart whole equal
          have here : first = [m] := by
            by_cases marked : Marked [m] first
            · rw [marked_eq marked,after]
            · rw [unmark_unmarked marked] at after
              exact absurd after full
          refine ⟨rfl,here,?_⟩
          cases later with
          | nil => exact absurd rfl bare
          | cons second rest =>
            have solid := inhabited second (List.mem_cons_of_mem _ List.mem_cons_self)
            simp only [List.map_cons,List.flatten_cons,List.countP_cons,List.nil_append,
              List.count_nil,decide_eq_true_eq,marked_append solid] at apart whole equal lost bare
            by_cases marked : Marked [m] second
            · simp only [if_pos marked] at whole lost bare
              refine ⟨second,rest,rfl,marked,?_,?_⟩
              · intro again
                have inside : Marked [m] (unmark [m] second ++ (rest.map (unmark [m])).flatten) := by
                  refine (marked_append ?_).mpr again
                  intro empty
                  rw [empty] at again
                  exact marked_nil again
                rw [if_pos inside] at apart
                omega
              · intro piece listed
                have zero : rest.countP (Marked [m] ·) = 0 := by omega
                simpa using List.countP_eq_zero.mp zero piece listed
            · simp only [if_neg marked] at whole lost bare
              omega

end single

theorem same_map {mark : List α} {mark' : List β} {stays : Bool} {pieces : List (List α)}
    {f : List α → List β} (empty : ∀ piece,f piece = [] ↔ piece = [])
    (marked : ∀ piece,Marked mark' (f piece) ↔ Marked mark piece)
    (unmarked : ∀ piece,unmark mark' (f piece) = f (unmark mark piece))
    (only : ∀ piece,f piece = mark' ↔ piece = mark) :
    Same mark' stays (pieces.map f) ↔ Same mark stays pieces := by
  have filtered : (pieces.map f).filter (· ≠ []) = (pieces.filter (· ≠ [])).map f := by
    rw [List.filter_map]
    congr 1
    refine List.filter_congr ?_
    intro piece _
    simp [empty]
  unfold Same
  rw [filtered]
  cases pieces.filter (· ≠ []) with
  | nil => exact Iff.rfl
  | cons first later =>
    simp only [List.map_cons,List.mem_map,forall_exists_index,and_imp,forall_apply_eq_imp_iff₂,marked,only]
    refine or_congr Iff.rfl (and_congr Iff.rfl (and_congr Iff.rfl ?_))
    cases later with
    | nil => simp
    | cons second rest => simp [marked,unmarked]

end Sharko.Library.Marks
