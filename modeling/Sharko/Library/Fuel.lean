import Mathlib.Data.Nat.Notation

/-! Recursion with fuel: what a computation yields whenever its fuel suffices, and that it does suffice. -/

namespace Sharko.Library.Fuel

universe u

variable {ε : Type*} {α β : Type u} {empty : ε}

/-- The result with any fuel that suffices; `empty` is the failure of a run whose fuel is used up. -/
def Yields (empty : ε) (run : ℕ → Except ε α) (r : Except ε α) : Prop := ∀ n,run n ≠ .error empty → run n = r

theorem Yields.const {x : Except ε α} (other : x ≠ .error empty) {r : Except ε α}
    (yields : Yields empty (fun _ => x) r) : x = r :=
  yields 0 other

theorem yields_self (x : Except ε α) : Yields empty (fun _ => x) x := fun _ _ => rfl

theorem Yields.next {run body : ℕ → Except ε α} {r : Except ε α} (zero : run 0 = .error empty)
    (succ : ∀ n,run (n + 1) = body n) (yields : Yields empty body r) : Yields empty run r := by
  intro n fed
  cases n with
  | zero => exact absurd zero fed
  | succ n =>
    rw [succ] at fed ⊢
    exact yields n fed

theorem Yields.bind {first : ℕ → Except ε α} {a : α} {later : ℕ → α → Except ε β} {r : Except ε β}
    (yields : Yields empty first (.ok a)) (rest : Yields empty (fun n => later n a) r) :
    Yields empty (fun n => first n >>= later n) r := by
  intro n fed
  have enough : first n ≠ .error empty := by
    intro used
    apply fed
    dsimp only
    rw [used]
    rfl
  have found := yields n enough
  dsimp only at fed ⊢
  rw [found] at fed ⊢
  exact rest n fed

theorem fed_bind {first : Except ε α} {later : α → Except ε β} (enough : first ≠ .error empty)
    (rest : ∀ a,first = .ok a → later a ≠ .error empty) : first >>= later ≠ .error empty := by
  cases first with
  | error e => exact fun used => enough (congrArg _ (Except.error.inj used))
  | ok a => exact rest a rfl

end Sharko.Library.Fuel
