import Mathlib

/-! Computations that may fail, and that succeed alike. -/

namespace Sharko.Library

universe u v

variable {ε : Type v} {α β γ : Type u}

def Alike (x y : Except ε α) : Prop := ∀ a,x = .ok a ↔ y = .ok a

namespace Alike

variable {x y z : Except ε α}

theorem refl (x : Except ε α) : Alike x x := fun _ => Iff.rfl

theorem trans (h : Alike x y) (h' : Alike y z) : Alike x z := fun a => (h a).trans (h' a)

theorem bind {f g : α → Except ε β} (h : Alike x y) (h' : ∀ a,x = .ok a → Alike (f a) (g a)) :
    Alike (x >>= f) (y >>= g) := by
  intro b
  cases first : x with
  | ok a =>
    rw [(h a).mp first]
    exact h' a first b
  | error e =>
    cases second : y with
    | ok a =>
      rw [(h a).mpr second] at first
      cases first
    | error e' =>
      refine ⟨?_,?_⟩ <;> rintro ⟨⟩

theorem andThen (h : Alike x y) (f : α → Except ε β) : Alike (x >>= f) (y >>= f) :=
  h.bind fun a _ => refl (f a)

theorem mapM {f g : γ → Except ε α} {list : List γ} (h : ∀ c ∈ list,Alike (f c) (g c)) :
    Alike (list.mapM f) (list.mapM g) := by
  induction list with
  | nil => exact refl _
  | cons c list ih =>
    obtain ⟨first,later⟩ := List.forall_mem_cons.mp h
    rw [List.mapM_cons,List.mapM_cons]
    exact first.bind fun a _ => (ih later).andThen _

end Alike

end Sharko.Library
