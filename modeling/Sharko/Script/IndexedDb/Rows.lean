import Mathlib.Data.Prod.Lex
import Sharko.Library.Bisection
import Sharko.Script.IndexedDb.Values

/-! The sorted rows of a store and of an index: probes, key ranges, and the rows that a
range selects. Store rows are ordered by key, index rows by key and primary key. -/

namespace Sharko.Script.IndexedDb

open Sharko.Library.Bisection

structure Row where
  id : Nat
  key : Key
  value : Value
  deriving DecidableEq

structure IndexRow where
  key : Key
  pk : Key
  record : Row
  deriving DecidableEq

class Keyed (α : Type) where
  key : α → Key
  pk : α → Key

instance : Keyed Row := ⟨Row.key,Row.key⟩

instance : Keyed IndexRow := ⟨IndexRow.key,IndexRow.pk⟩

variable {α : Type} [Keyed α]

def cmpRow (row : α) (key : Key) (pk : Option Key) : Ordering :=
  match pk with
  | none => cmpKeys (Keyed.key row) key
  | some pk => (cmpKeys (Keyed.key row) key).then (cmpKeys (Keyed.pk row) pk)

def lowerIdx (rows : List α) (key : Key) (pk : Option Key) : Nat :=
  bisect (fun row => cmpRow row key pk == .lt) rows

def upperIdx (rows : List α) (key : Key) (pk : Option Key) : Nat :=
  bisect (fun row => cmpRow row key pk != .gt) rows

structure KeyRange where
  lo : Option Key
  hi : Option Key
  loOpen : Bool
  hiOpen : Bool
  deriving DecidableEq

def KeyRange.only (key : Key) : KeyRange := ⟨some key,some key,false,false⟩

def spanOf (rows : List α) (range : Option KeyRange) : Nat × Nat :=
  match range with
  | none => (0,rows.length)
  | some range =>
    let s :=
      match range.lo with
      | none => 0
      | some lo => if range.loOpen then upperIdx rows lo none else lowerIdx rows lo none
    let e :=
      match range.hi with
      | none => rows.length
      | some hi => if range.hiOpen then lowerIdx rows hi none else upperIdx rows hi none
    (s,max s e)

inductive Direction where
  | next
  | nextunique
  | prev
  | prevunique
  deriving DecidableEq

def nextUniqueFrom (before : Option Key) : List α → List α
  | [] => []
  | row :: rest =>
    if before.any fun key => cmpKeys key (Keyed.key row) == .eq then
      nextUniqueFrom (some (Keyed.key row)) rest
    else row :: nextUniqueFrom (some (Keyed.key row)) rest

def prevUniqueFrom (run : Key) (row : α) : List α → List α
  | [] => [row]
  | other :: rest =>
    if cmpKeys (Keyed.key other) run == .eq then prevUniqueFrom run other rest
    else row :: prevUniqueFrom (Keyed.key other) other rest

def collect (rows : List α) (range : Option KeyRange) (dir : Direction) (limit : Nat) : List α :=
  let (s,e) := spanOf rows range
  let slice := (rows.take e).drop s
  let out :=
    match dir with
    | .next => slice
    | .nextunique => nextUniqueFrom none slice
    | .prev => slice.reverse
    | .prevunique =>
      match slice.reverse with
      | [] => []
      | row :: rest => prevUniqueFrom (Keyed.key row) row rest
  if limit = 0 then out else out.take limit

def rank (row : α) : Key ×ₗ Key := toLex (Keyed.key row,Keyed.pk row)

variable {rows : List α} {row : α}

def inRange (r : KeyRange) (key : Key) : Bool :=
  (r.lo.all fun lo => let c := cmpKeys key lo; !(c == .lt || c == .eq && r.loOpen)) &&
    r.hi.all fun hi => let c := cmpKeys key hi; !(c == .gt || c == .eq && r.hiOpen)

theorem lowerIdx_split (sorted : rows.Pairwise fun a b => Keyed.key a ≤ Keyed.key b) (key : Key) :
    Split (fun row => cmpRow row key none == .lt) rows := by
  apply List.Pairwise.imp _ sorted
  intro first second less below
  simp only [cmpRow,cmpKeys_eq_compare,beq_iff_eq,compare_lt_iff_lt] at below ⊢
  exact lt_of_le_of_lt less below

theorem upperIdx_split (sorted : rows.Pairwise fun a b => Keyed.key a ≤ Keyed.key b) (key : Key) :
    Split (fun row => cmpRow row key none != .gt) rows := by
  apply List.Pairwise.imp _ sorted
  intro first second less below
  simp only [cmpRow,cmpKeys_eq_compare,bne_iff_ne,ne_eq,compare_gt_iff_gt,not_lt] at below ⊢
  exact less.trans below

def below (range : KeyRange) (row : α) : Bool :=
  range.lo.any fun lo =>
    if range.loOpen then cmpRow row lo none != .gt else cmpRow row lo none == .lt

def notAbove (range : KeyRange) (row : α) : Bool :=
  range.hi.all fun hi =>
    if range.hiOpen then cmpRow row hi none == .lt else cmpRow row hi none != .gt

theorem inRange_eq (range : KeyRange) (row : α) :
    inRange range (Keyed.key row) = (notAbove range row && !below range row) := by
  unfold inRange notAbove below cmpRow
  rw [Bool.and_comm]
  congr 1
  · cases range.hi with
    | none => rfl
    | some hi => cases range.hiOpen <;> cases same : cmpKeys (Keyed.key row) hi <;> simp [same]
  · cases range.lo with
    | none => rfl
    | some lo => cases range.loOpen <;> cases same : cmpKeys (Keyed.key row) lo <;> simp [same]

omit [Keyed α] in
theorem bisect_const (rows : List α) :
    bisect (fun _ => false) rows = 0 ∧ bisect (fun _ => true) rows = rows.length := by
  have never := @bisect_append α (fun _ => false) [] rows (by simp) (by simp)
  have always := @bisect_append α (fun _ => true) rows [] (by simp) (by simp)
  rw [List.append_nil] at always
  exact ⟨never,always⟩

theorem below_split (sorted : rows.Pairwise fun a b => Keyed.key a ≤ Keyed.key b) (range : KeyRange) :
    Split (below range) rows := by
  obtain ⟨lo,hi,loOpen,hiOpen⟩ := range
  cases lo with
  | none => exact sorted.imp fun _ => id
  | some lo =>
    cases loOpen
    · exact lowerIdx_split sorted lo
    · exact upperIdx_split sorted lo

theorem notAbove_split (sorted : rows.Pairwise fun a b => Keyed.key a ≤ Keyed.key b)
    (range : KeyRange) : Split (notAbove range) rows := by
  obtain ⟨lo,hi,loOpen,hiOpen⟩ := range
  cases hi with
  | none => exact sorted.imp fun _ => id
  | some hi =>
    cases hiOpen
    · exact upperIdx_split sorted hi
    · exact lowerIdx_split sorted hi

theorem spanOf_eq (rows : List α) (range : KeyRange) : spanOf rows (some range) =
    (bisect (below range) rows,max (bisect (below range) rows) (bisect (notAbove range) rows)) := by
  obtain ⟨lo,hi,loOpen,hiOpen⟩ := range
  obtain ⟨never,always⟩ := bisect_const rows
  have start : (spanOf rows (some ⟨lo,hi,loOpen,hiOpen⟩)).1 = bisect (below ⟨lo,hi,loOpen,hiOpen⟩) rows := by
    cases lo with
    | none => exact never.symm
    | some lo => cases loOpen <;> rfl
  rw [← start]
  refine Prod.ext rfl (congrArg (max _) ?_)
  cases hi with
  | none => exact always.symm
  | some hi => cases hiOpen <;> rfl

theorem spanOf_searches (sorted : rows.Pairwise fun a b => Keyed.key a ≤ Keyed.key b)
    (range : Option KeyRange) : ∃ low high : α → Bool,Split low rows ∧ Split high rows ∧
      spanOf rows range = (bisect low rows,max (bisect low rows) (bisect high rows)) ∧
      ∀ row,(range.all fun r => inRange r (Keyed.key row)) = (high row && !low row) := by
  cases range with
  | none =>
    obtain ⟨never,always⟩ := bisect_const rows
    refine ⟨fun _ => false,fun _ => true,sorted.imp fun _ => id,sorted.imp fun _ => id,?_,fun _ => rfl⟩
    simp [spanOf,never,always]
  | some range =>
    exact ⟨below range,notAbove range,below_split sorted range,notAbove_split sorted range,
      spanOf_eq rows range,inRange_eq range⟩

theorem slice_inRange (rows : List α) (sorted : rows.Pairwise fun a b => Keyed.key a ≤ Keyed.key b)
    (range : Option KeyRange) : (rows.take (spanOf rows range).2).drop (spanOf rows range).1 =
      rows.filter fun row => range.all fun r => inRange r (Keyed.key row) := by
  obtain ⟨low,high,first,second,span,same⟩ := spanOf_searches sorted range
  simp only [span,same]
  exact slice_eq_filter first second

namespace Sample

def record : Row := ⟨0,.binary [7],.blob 0⟩

def entries : List IndexRow := [⟨.binary [1],.binary [7],record⟩,⟨.binary [1],.binary [8],record⟩,
  ⟨.binary [1,0],.binary [7],record⟩]

theorem slice_inRange_entries :
    let range : KeyRange := ⟨some (.binary [1]),some (.binary [2]),true,false⟩
    (entries.take (spanOf entries (some range)).2).drop (spanOf entries (some range)).1 =
      entries.filter fun row => inRange range row.key :=
  slice_inRange entries (by decide) (some _)

end Sample

end Sharko.Script.IndexedDb
