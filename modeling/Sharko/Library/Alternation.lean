import Mathlib.Data.List.Basic

/-! How often the entries of a list of truth values change, along the list and around it. -/

namespace Sharko.Library.Alternation

def step (a b : Bool) : ℕ := if a = b then 0 else 1

def changesFrom (a : Bool) : List Bool → ℕ
  | [] => 0
  | b :: l => step a b + changesFrom b l

def changes : List Bool → ℕ
  | [] => 0
  | a :: l => changesFrom a l

theorem step_between {a b m : Bool} (between : m = a ∨ m = b) : step a m + step m b = step a b := by
  obtain rfl | rfl := between
  · simp [step]
  · simp [step]

theorem changesFrom_le_step (a b : Bool) (l : List Bool) : changesFrom a l ≤ step a b + changesFrom b l := by
  cases l with
  | nil => exact Nat.zero_le _
  | cons c l =>
    have triangle : step a c ≤ step a b + step b c := by
      cases a <;> cases b <;> cases c <;> decide
    simp only [changesFrom]
    omega

theorem changesFrom_sublist {u w : List Bool} (sub : u.Sublist w) (a : Bool) :
    changesFrom a u ≤ changesFrom a w := by
  induction sub generalizing a with
  | slnil => exact Nat.le_refl _
  | cons b _ ih => exact Nat.le_trans (changesFrom_le_step a b _) (Nat.add_le_add_left (ih b) _)
  | cons_cons b _ ih => exact Nat.add_le_add_left (ih b) _

theorem changes_sublist {u w : List Bool} (sub : u.Sublist w) : changes u ≤ changes w := by
  match u,w,sub with
  | [],_,_ => exact Nat.zero_le _
  | a :: u,b :: w,sub =>
    cases sub with
    | cons _ sub =>
      have later : changesFrom a u ≤ changesFrom b (a :: u) := Nat.le_add_left _ _
      exact Nat.le_trans later (changesFrom_sublist sub b)
    | cons_cons _ sub => exact changesFrom_sublist sub a

theorem changesFrom_last_le (a b : Bool) (l : List Bool) : changesFrom a (l ++ [b]) ≤ changesFrom a l + 1 := by
  induction l generalizing a with
  | nil =>
    simp only [List.nil_append,changesFrom,step]
    split <;> omega
  | cons c l ih =>
    have later := ih c
    simp only [List.cons_append,changesFrom]
    omega

theorem changesFrom_parity (a b : Bool) (l : List Bool) : changesFrom a (l ++ [b]) % 2 = step a b := by
  induction l generalizing a with
  | nil => cases a <;> cases b <;> rfl
  | cons c l ih =>
    have parity : (step a c + step c b) % 2 = step a b := by
      cases a <;> cases b <;> cases c <;> rfl
    rw [List.cons_append,changesFrom,Nat.add_mod,ih,← parity]
    omega

theorem changesFrom_constant {l : List Bool} {a : Bool} (same : ∀ b ∈ l,b = a) : changesFrom a l = 0 := by
  induction l with
  | nil => rfl
  | cons b l ih =>
    obtain rfl := same b List.mem_cons_self
    rw [changesFrom,ih fun c member => same c (List.mem_cons_of_mem _ member)]
    simp [step]

theorem changesFrom_closed {a : Bool} {l : List Bool} (few : changes (a :: l) ≤ 2) :
    changesFrom a (l ++ [a]) ≤ 2 := by
  have more := changesFrom_last_le a a l
  have even := changesFrom_parity a a l
  rw [step,if_pos rfl] at even
  simp only [changes] at few
  omega

theorem changes_rotate {a : Bool} {l : List Bool} (few : changes (a :: l) ≤ 2) : changes (l ++ [a]) ≤ 2 := by
  have closed : changes (a :: (l ++ [a])) ≤ 2 := changesFrom_closed few
  exact Nat.le_trans (changes_sublist (List.sublist_cons_self _ _)) closed

end Sharko.Library.Alternation
