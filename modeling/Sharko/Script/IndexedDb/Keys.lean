import Mathlib

/-! The keys of IndexedDB (`45_indexeddb.js`): numbers, dates, strings, binary data and arrays
of keys, ascending in this order, and the comparison that sorts every row list. -/

namespace Sharko.Script.IndexedDb

abbrev Number := WithBot (WithTop ℚ)

abbrev Text := List (Fin 65536)

instance units_ne_zero : NeZero (65536 : Nat) := ⟨by decide⟩

inductive Key where
  | number (v : Number)
  | date (v : Int)
  | string (v : Text)
  | binary (v : List (Fin 256))
  | array (v : List Key)

def Key.t : Key → Nat
  | .number _ => 1
  | .date _ => 2
  | .string _ => 3
  | .binary _ => 4
  | .array _ => 5

mutual

def cmpKeys : Key → Key → Ordering
  | .number a,.number b => compare a b
  | .date a,.date b => compare a b
  | .string a,.string b => compare a b
  | .binary a,.binary b => compare a b
  | .array a,.array b => cmpMembers a b
  | a,b => compare a.t b.t

def cmpMembers : List Key → List Key → Ordering
  | [],[] => .eq
  | [],_ :: _ => .lt
  | _ :: _,[] => .gt
  | a :: as,b :: bs => (cmpKeys a b).then (cmpMembers as bs)

end

mutual

theorem cmpKeys_swap (a b : Key) : cmpKeys a b = (cmpKeys b a).swap := by
  cases a <;> cases b <;> simp only [cmpKeys]
  case array.array as bs => exact cmpMembers_swap as bs
  all_goals exact Std.OrientedOrd.eq_swap

theorem cmpMembers_swap (as bs : List Key) : cmpMembers as bs = (cmpMembers bs as).swap := by
  match as,bs with
  | [],[] => rfl
  | [],_ :: _ => rfl
  | _ :: _,[] => rfl
  | a :: as,b :: bs =>
    simp only [cmpMembers]
    rw [cmpKeys_swap a b,cmpMembers_swap as bs,Ordering.swap_then]

end

mutual

theorem cmpKeys_self (a : Key) : cmpKeys a a = .eq := by
  cases a with
  | array as => exact cmpMembers_self as
  | _ => simp [cmpKeys]

theorem cmpMembers_self (as : List Key) : cmpMembers as as = .eq := by
  match as with
  | [] => rfl
  | a :: as =>
    rw [cmpMembers,cmpKeys_self a,cmpMembers_self as]
    rfl

end

theorem cmpKeys_of_types {a b : Key} (differ : a.t ≠ b.t) : cmpKeys a b = compare a.t b.t := by
  cases a <;> cases b <;> first | rfl | exact absurd rfl differ

theorem types_le_of_lt {a b : Key} (less : cmpKeys a b = .lt) : a.t ≤ b.t := by
  rcases eq_or_ne a.t b.t with same | differ
  · exact same.le
  · rw [cmpKeys_of_types differ,compare_lt_iff_lt] at less
    exact less.le

mutual

theorem eq_of_cmpKeys {a b : Key} (same : cmpKeys a b = .eq) : a = b := by
  cases a <;> cases b <;> simp only [cmpKeys] at same
  case array.array as bs => rw [eq_of_cmpMembers same]
  all_goals
    first
    | rw [Std.LawfulEqOrd.eq_of_compare same]
    | simp [Key.t] at same

theorem eq_of_cmpMembers {as bs : List Key} (same : cmpMembers as bs = .eq) : as = bs := by
  match as,bs with
  | [],[] => rfl
  | [],_ :: _ => simp [cmpMembers] at same
  | _ :: _,[] => simp [cmpMembers] at same
  | a :: as,b :: bs =>
    rw [cmpMembers,Ordering.then_eq_eq] at same
    rw [eq_of_cmpKeys same.1,eq_of_cmpMembers same.2]

end

mutual

theorem cmpKeys_lt_trans {a b c : Key} (first : cmpKeys a b = .lt) (second : cmpKeys b c = .lt) :
    cmpKeys a c = .lt := by
  by_cases types : a.t < c.t
  · rw [cmpKeys_of_types types.ne,compare_lt_iff_lt]
    exact types
  -- otherwise all three are of one type
  have ab := types_le_of_lt first
  have bc := types_le_of_lt second
  have types_ab : a.t = b.t := by omega
  have types_bc : b.t = c.t := by omega
  cases a <;> cases b <;> simp only [Key.t,Nat.reduceEqDiff] at types_ab
  all_goals cases c <;> simp only [Key.t,Nat.reduceEqDiff] at types_bc
  case array.array.array as bs cs => exact cmpMembers_lt_trans first second
  all_goals
    simp only [cmpKeys] at first second ⊢
    exact Std.TransCmp.lt_trans first second

theorem cmpMembers_lt_trans {as bs cs : List Key} (first : cmpMembers as bs = .lt)
    (second : cmpMembers bs cs = .lt) : cmpMembers as cs = .lt := by
  match as,bs,cs with
  | _,[],[] => simp [cmpMembers] at second
  | _,_ :: _,[] => simp [cmpMembers] at second
  | [],_,_ :: _ => rfl
  | _ :: _,[],_ :: _ => simp [cmpMembers] at first
  | a :: as,b :: bs,c :: cs =>
    simp only [cmpMembers,Ordering.then_eq_lt] at first second ⊢
    rcases first with ab | ⟨ab,abs⟩ <;> rcases second with bc | ⟨bc,bcs⟩
    · exact Or.inl (cmpKeys_lt_trans ab bc)
    · exact Or.inl (eq_of_cmpKeys bc ▸ ab)
    · exact Or.inl (eq_of_cmpKeys ab ▸ bc)
    · exact Or.inr ⟨(eq_of_cmpKeys ab).trans (eq_of_cmpKeys bc) ▸ cmpKeys_self a,
        cmpMembers_lt_trans abs bcs⟩

end

theorem cmpKeys_gt_iff {a b : Key} : cmpKeys a b = .gt ↔ cmpKeys b a = .lt := by
  rw [cmpKeys_swap a b]
  cases cmpKeys b a <;> decide

instance : DecidableEq Key := fun a b =>
  if same : cmpKeys a b = .eq then .isTrue (eq_of_cmpKeys same)
  else .isFalse fun equal => same (equal ▸ cmpKeys_self a)

instance : LinearOrder Key where
  le a b := cmpKeys a b ≠ .gt
  lt a b := cmpKeys a b = .lt
  le_refl a := by simp [cmpKeys_self]
  le_trans a b c ab bc := by
    intro ac
    rw [cmpKeys_gt_iff] at ac
    rcases reached : cmpKeys a b with - | - | -
    · have := cmpKeys_lt_trans ac reached
      exact bc (cmpKeys_gt_iff.mpr this)
    · exact bc (cmpKeys_gt_iff.mpr (eq_of_cmpKeys reached ▸ ac))
    · exact ab reached
  lt_iff_le_not_ge a b := by
    show cmpKeys a b = .lt ↔ cmpKeys a b ≠ .gt ∧ ¬cmpKeys b a ≠ .gt
    rw [not_not,cmpKeys_gt_iff]
    constructor
    · intro less
      exact ⟨by simp [less],less⟩
    · exact And.right
  le_antisymm a b ab ba := by
    rcases reached : cmpKeys a b with - | - | -
    · exact absurd (cmpKeys_gt_iff.mpr reached) ba
    · exact eq_of_cmpKeys reached
    · exact absurd reached ab
  le_total a b := by
    by_cases greater : cmpKeys a b = .gt
    · right
      rw [cmpKeys_gt_iff] at greater
      simp [greater]
    · exact Or.inl greater
  toDecidableLE a b := inferInstanceAs (Decidable (cmpKeys a b ≠ .gt))
  toDecidableLT a b := inferInstanceAs (Decidable (cmpKeys a b = .lt))
  toDecidableEq := inferInstance
  compare := cmpKeys
  compare_eq_compareOfLessAndEq a b := by
    show cmpKeys a b = if cmpKeys a b = .lt then .lt else if a = b then .eq else .gt
    rcases reached : cmpKeys a b with - | - | -
    · rfl
    · simp [eq_of_cmpKeys reached]
    · have : a ≠ b := by
        rintro rfl
        simp [cmpKeys_self] at reached
      simp [this]

theorem cmpKeys_eq_compare (a b : Key) : cmpKeys a b = compare a b := rfl

end Sharko.Script.IndexedDb
