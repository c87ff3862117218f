import Sharko.Library.Folds
import Sharko.Script.Shaders.Preprocessor

/-! No macro has a line break in it, and so no line of the output. -/

namespace Sharko.Script.Shaders.Preprocessor

open Sharko.Library

def Clean (t : Text) : Prop := '\n' ∉ t

theorem Clean.append {t u : Text} (left : Clean t) (right : Clean u) : Clean (t ++ u) := by
  intro mem
  exact (List.mem_append.mp mem).elim left right

theorem Clean.of_subset {t u : Text} (clean : Clean u) (subset : t ⊆ u) : Clean t :=
  fun mem => clean (subset mem)

theorem trimStart_subset (t : Text) : trimStart t ⊆ t := (List.dropWhile_suffix _).subset

theorem trim_subset (t : Text) : trim t ⊆ t := by
  intro c mem
  exact trimStart_subset _ (List.mem_reverse.mp (trimStart_subset _ (List.mem_reverse.mp mem)))

theorem clean_toString (n : ℕ) : Clean (toString n).toList := by
  intro mem
  have digits : '\n' ∈ Nat.toDigits 10 n := by simpa [toString,Nat.repr] using mem
  exact absurd (Nat.isDigit_of_mem_toDigits (by decide) (by decide) digits) (by decide)

def CleanMacros (macros : Macros) : Prop := ∀ name mac,macros name = some mac → Clean mac.body

theorem CleanMacros.update {macros : Macros} {name : Text} {new : Option Macro} (clean : CleanMacros macros)
    (body : ∀ mac,new = some mac → Clean mac.body) : CleanMacros (Function.update macros name new) := by
  intro name' mac found
  by_cases this_ : name' = name
  · subst this_
    rw [Function.update_self] at found
    exact body mac found
  · rw [Function.update_of_ne this_] at found
    exact clean name' mac found

theorem parametersOf_subset (t : Text) : (parametersOf t).2 ⊆ t := by
  unfold parametersOf
  split
  · rename_i inside
    split
    · rename_i body found
      have : body ⊆ inside.dropWhile (· ≠ ')') := by
        rw [found]
        exact List.subset_cons_self _ _
      exact List.Subset.trans (List.Subset.trans this (List.dropWhile_suffix _).subset)
        (List.subset_cons_self _ _)
    · exact List.Subset.refl _
  · exact List.Subset.refl _

def Line.content : Line → Text
  | .directive _ rest => rest
  | .text t => t

end Sharko.Script.Shaders.Preprocessor
