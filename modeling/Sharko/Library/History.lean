import Mathlib

/-! Logs, newest entry first, in which every entry is allowed by the ones before it. -/

namespace Sharko.Library

variable {ε : Type} {may : List ε → ε → Prop}

def Admissible (may : List ε → ε → Prop) : List ε → Prop
  | [] => True
  | e :: past => may past e ∧ Admissible may past

namespace Admissible

theorem earlier {news past : List ε} (h : Admissible may (news ++ past)) : Admissible may past := by
  induction news with
  | nil => exact h
  | cons e news ih => exact ih h.2

theorem entry {news past : List ε} {e : ε} (h : Admissible may (news ++ e :: past)) : may past e :=
  h.earlier.1

end Admissible

end Sharko.Library
