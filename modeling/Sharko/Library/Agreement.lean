import Mathlib

/-! Two sequences that are equal under a condition and of different lengths without it. Where
such sequences are put together, the wholes are equal exactly if all the conditions hold. -/

namespace Sharko.Library

variable {α β : Type*}

def Agree (condition : Prop) (first second : List α) : Prop :=
  (condition → first = second) ∧ (¬ condition → first.length < second.length)

namespace Agree

variable {condition other : Prop} {first second : List α}

theorem refl (l : List α) : Agree True l l := ⟨fun _ => rfl,fun fails => absurd trivial fails⟩

theorem iff (agree : Agree condition first second) : first = second ↔ condition := by
  refine ⟨fun same => ?_,agree.1⟩
  by_contra fails
  exact absurd (congrArg List.length same) (agree.2 fails).ne

theorem length_le (agree : Agree condition first second) : first.length ≤ second.length := by
  by_cases holds : condition
  · rw [agree.1 holds]
  · exact (agree.2 holds).le

theorem congr (agree : Agree condition first second) (same : condition ↔ other) : Agree other first second := by
  rwa [propext same] at agree

theorem append {first' second' : List α} (agree : Agree condition first second)
    (agree' : Agree other first' second') : Agree (condition ∧ other) (first ++ first') (second ++ second') := by
  constructor
  · intro both
    rw [agree.1 both.1,agree'.1 both.2]
  · intro fails
    rw [List.length_append,List.length_append]
    rcases not_and_or.mp fails with fails | fails
    · exact Nat.add_lt_add_of_lt_of_le (agree.2 fails) agree'.length_le
    · exact Nat.add_lt_add_of_le_of_lt agree.length_le (agree'.2 fails)

theorem append_left (agree : Agree condition first second) (start : List α) :
    Agree condition (start ++ first) (start ++ second) :=
  ((refl start).append agree).congr (iff_of_eq (true_and condition))

theorem append_right (agree : Agree condition first second) (rest : List α) :
    Agree condition (first ++ rest) (second ++ rest) :=
  (agree.append (refl rest)).congr (iff_of_eq (and_true condition))

theorem of_lt (fails : ¬ condition) (shorter : first.length < second.length) : Agree condition first second :=
  ⟨fun holds => absurd holds fails,fun _ => shorter⟩

theorem flatMap {condition : β → Prop} {f g : β → List α} {items : List β}
    (agree : ∀ item ∈ items,Agree (condition item) (f item) (g item)) :
    Agree (∀ item ∈ items,condition item) (items.flatMap f) (items.flatMap g) := by
  induction items with
  | nil => exact (refl []).congr (iff_of_true trivial fun item mem => absurd mem List.not_mem_nil)
  | cons item items ih =>
    obtain ⟨here,later⟩ := List.forall_mem_cons.mp agree
    exact (here.append (ih later)).congr List.forall_mem_cons.symm

end Agree

end Sharko.Library
