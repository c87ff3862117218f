import Mathlib.Data.List.Forall2

/-! Runs that may fail: a fold in `Except`, the states on its way, and what its steps keep. -/

namespace Sharko.Library.Folds

universe u

variable {σ α ε : Type*} {f : σ → α → Except ε σ}

theorem bind_ok {α β : Type u} {x : Except ε α} {g : α → Except ε β} {r : β} :
    x >>= g = .ok r ↔ ∃ a,x = .ok a ∧ g a = .ok r := by
  cases x with
  | error e =>
    constructor
    · intro bad
      cases bad
    · rintro ⟨_,bad,_⟩
      cases bad
  | ok a =>
    constructor
    · intro done
      exact ⟨a,rfl,done⟩
    · rintro ⟨a',found,done⟩
      cases found
      exact done

theorem cons_ok {s r : σ} {x : α} {xs : List α} :
    (x :: xs).foldlM f s = .ok r ↔ ∃ m,f s x = .ok m ∧ xs.foldlM f m = .ok r := by
  rw [List.foldlM_cons,bind_ok]

theorem append_ok {s r : σ} {xs ys : List α} :
    (xs ++ ys).foldlM f s = .ok r ↔ ∃ m,xs.foldlM f s = .ok m ∧ ys.foldlM f m = .ok r := by
  induction xs generalizing s with
  | nil =>
    constructor
    · intro done
      exact ⟨s,rfl,done⟩
    · rintro ⟨m,found,done⟩
      cases found
      exact done
  | cons x xs ih =>
    rw [List.cons_append,cons_ok]
    constructor
    · rintro ⟨m,first,done⟩
      obtain ⟨m',middle,done⟩ := ih.mp done
      exact ⟨m',cons_ok.mpr ⟨m,first,middle⟩,done⟩
    · rintro ⟨m',middle,done⟩
      obtain ⟨m,first,middle⟩ := cons_ok.mp middle
      exact ⟨m,first,ih.mpr ⟨m',middle,done⟩⟩

theorem keeps {I : σ → Prop} {s r : σ} {xs : List α} (kept : ∀ s x s',x ∈ xs → I s → f s x = .ok s' → I s')
    (start : I s) (done : xs.foldlM f s = .ok r) : I r := by
  induction xs generalizing s with
  | nil =>
    cases done
    exact start
  | cons x xs ih =>
    obtain ⟨m,first,done⟩ := cons_ok.mp done
    exact ih (fun s y s' mem => kept s y s' (List.mem_cons_of_mem x mem))
      (kept s x m List.mem_cons_self start first) done

theorem mapM_of_ok {α β : Type u} {g : α → Except ε β} {h : α → β} {xs : List α}
    (total : ∀ a ∈ xs,g a = .ok (h a)) : xs.mapM g = .ok (xs.map h) := by
  induction xs with
  | nil => rfl
  | cons a rest ih =>
    obtain ⟨first,later⟩ := List.forall_mem_cons.mp total
    rw [List.mapM_cons,first,ih later]
    rfl

end Sharko.Library.Folds
