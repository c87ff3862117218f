import Mathlib
import Sharko.Script.IndexedDb.Progress

/-! Cursors over the sorted rows of a store or an index: what one move finds, and what all of
them visit. -/

namespace Sharko.Script.IndexedDb
open Library.Bisection

section order
variable {α : Type} [Keyed α] {rows slice : List α} {a : α}

def Direction.beyond (a row : α) : Direction → Bool
  | .next => decide (rank a < rank row)
  | .nextunique => decide (Keyed.key a < Keyed.key row)
  | .prev => decide (rank row < rank a)
  | .prevunique => decide (Keyed.key row < Keyed.key a)

def Direction.first (slice : List α) : Direction → Option α
  | .next | .nextunique => slice.head?
  | .prev => slice.getLast?
  | .prevunique => slice.getLast?.bind fun last =>
    (slice.filter fun row => decide (Keyed.key row = Keyed.key last)).head?

def inOrder (slice : List α) : Direction → List α
  | .next => slice
  | .nextunique => nextUniqueFrom none slice
  | .prev => slice.reverse
  | .prevunique =>
    match slice.reverse with
    | [] => []
    | row :: rest => prevUniqueFrom (Keyed.key row) row rest

theorem keys_le (sorted : Sorted rank rows) : rows.Pairwise fun a b => Keyed.key a ≤ Keyed.key b := by
  refine sorted.imp ?_
  intro a b less
  rcases Prod.Lex.toLex_lt_toLex.mp less with keys | ⟨keys,-⟩
  · exact keys.le
  · exact keys.le

theorem first_unique {dir : Direction} (unique : dir = .nextunique ∨ dir = .prevunique)
    (sorted : Sorted rank slice) {a : α} (first : dir.first slice = some a) :
    a ∈ slice ∧ (∀ other ∈ slice,Keyed.key other = Keyed.key a → rank a ≤ rank other) ∧
      ∀ other ∈ slice,dir.beyond a other = true ↔ Keyed.key other ≠ Keyed.key a := by
  rcases unique with rfl | rfl
  · obtain ⟨rest,rfl⟩ := List.head?_eq_some_iff.mp first
    obtain ⟨above,-⟩ := sorted_cons.mp sorted
    refine ⟨List.mem_cons_self,fun other mem _ => ?_,fun other mem => ?_⟩
    · rcases List.mem_cons.mp mem with rfl | later
      · exact le_rfl
      · exact (above other later).le
    · rcases List.mem_cons.mp mem with rfl | later
      · simp [Direction.beyond]
      · have le := (List.pairwise_cons.mp (keys_le sorted)).1 other later
        simpa [Direction.beyond] using ⟨ne_of_gt,fun differ => lt_of_le_of_ne le (Ne.symm differ)⟩
  · obtain ⟨last,isLast,head⟩ := Option.bind_eq_some_iff.mp first
    obtain ⟨front,rfl⟩ := List.getLast?_eq_some_iff.mp isLast
    obtain ⟨rest,shape⟩ := List.head?_eq_some_iff.mp head
    have member : a ∈ (front ++ [last]).filter fun row => decide (Keyed.key row = Keyed.key last) := by
      simp [shape]
    obtain ⟨inside,same⟩ := List.mem_filter.mp member
    have same : Keyed.key a = Keyed.key last := of_decide_eq_true same
    have run : Sorted rank (a :: rest) := shape ▸ sorted.sublist List.filter_sublist
    refine ⟨inside,fun other mem equal => ?_,fun other mem => ?_⟩
    · have kept : other ∈ a :: rest := shape ▸
        List.mem_filter.mpr ⟨mem,decide_eq_true (equal.trans same)⟩
      rcases List.mem_cons.mp kept with rfl | later
      · exact le_rfl
      · exact ((sorted_cons.mp run).1 other later).le
    · have le : Keyed.key other ≤ Keyed.key a := by
        rw [same]
        rcases List.mem_append.mp mem with early | late
        · exact (List.pairwise_append.mp (keys_le sorted)).2.2 other early last (by simp)
        · rw [List.mem_singleton.mp late]
      simpa [Direction.beyond] using ⟨ne_of_lt,fun differ => lt_of_le_of_ne le differ⟩

end order

section moves
variable {rows : List Entry} {c : Cursor}

def Cursor.osp (c : Cursor) (objPos : Option Key) : Option Key :=
  if c.source.index.isSome ∧ ¬(c.direction = .nextunique ∨ c.direction = .prevunique) then objPos else none

def Cursor.ahead (c : Cursor) (position objPos : Option Key) (row : Entry) : Bool :=
  position.all fun pos => cmpRow row pos (c.osp objPos) ==
    if c.direction = .next ∨ c.direction = .nextunique then .gt else .lt

def Cursor.remaining (c : Cursor) (rows : List Entry) (position objPos : Option Key) : List Entry :=
  rows.filter fun row => (c.range.all fun r => inRange r row.key) && c.ahead position objPos row

/-- The order of the rows that a cursor goes by: all of their rank, or their key alone. -/
def Cursor.before (c : Cursor) (place row : Key × Key) : Bool :=
  if c.source.index.isSome ∧ ¬(c.direction = .nextunique ∨ c.direction = .prevunique) then
    decide (toLex place < toLex row)
  else decide (place.1 < row.1)

theorem before_trans {x y z : Key × Key} (first : c.before x y = true) (second : c.before y z = true) :
    c.before x z = true := by
  unfold Cursor.before at *
  split_ifs at * <;> simp only [decide_eq_true_eq] at * <;> exact first.trans second

end moves

def Cursor.shown (c : Cursor) (row : Entry) : Key × Key × Option Value :=
  (row.key,row.pk,if c.keyOnly then none else some row.value)

def Cursor.at (c : Cursor) (row : Entry) : Cursor :=
  { c with
    position := some row.key,objPos := some row.pk,key := some row.key,pk := some row.pk
    value := if c.keyOnly then none else some row.value,gotValue := true }

namespace World
variable {σ : World} {id : Nat}

def moved (σ : World) (id count : Nat) : World :=
  { σ with cursor := Function.update σ.cursor id (σ.iterate id none none count).1 }

def continued (id : Nat) : Nat → World → Option World
  | 0,σ => some σ
  | n + 1,σ =>
    match (σ.iterate id none none 1).2 with
    | .cursor (some _) => continued id n (σ.moved id 1)
    | _ => none

namespace Sample

def opened : World :=
  { page with
    content := ⟨none,fun _ => { store with
      index := fun _ => ⟨[],.one [],false,false,IndexedDb.Sample.entries,true,false⟩ }⟩
    cursor := fun _ => ⟨0,0,⟨0,some 0⟩,.prevunique,none,true,none,none,none,none,none,true⟩ }

end Sample

end World

end Sharko.Script.IndexedDb
