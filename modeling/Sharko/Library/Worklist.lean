import Mathlib

/-! A loop over a stack: a turn takes the item on top off, prints and pushes further items. -/

namespace Sharko.Library.Worklist

variable {σ τ : Type*} (turn : σ → Option (List σ × List τ))

def run : ℕ → List σ → List τ → Option (List τ)
  | _,[],out => some out
  | 0,_ :: _,_ => none
  | fuel + 1,item :: stack,out =>
    (turn item).bind fun (pushed,printed) => run fuel (pushed ++ stack) (out ++ printed)

/-- What is printed until the items and all that they push are off the stack. -/
inductive Prints : List σ → List τ → Prop
  | nil : Prints [] []
  | cons {item : σ} {pushed items : List σ} {printed inside after : List τ}
      (taken : turn item = some (pushed,printed)) (below : Prints pushed inside)
      (rest : Prints items after) : Prints (item :: items) (printed ++ inside ++ after)

variable {turn} {items more : List σ} {text later : List τ}

theorem Prints.append (prints : Prints turn items text) (rest : Prints turn more later) :
    Prints turn (items ++ more) (text ++ later) := by
  induction prints with
  | nil => exact rest
  | cons taken below _ _ ih =>
    rw [List.append_assoc]
    exact .cons taken below ih

theorem Prints.leaf {item : σ} (taken : turn item = some ([],text)) (rest : Prints turn items later) :
    Prints turn (item :: items) (text ++ later) := by
  have whole := Prints.cons taken .nil rest
  rwa [List.append_nil] at whole

/-- The loop prints it before it comes to the items that were on the stack. -/
theorem Prints.run (prints : Prints turn items text) : ∃ enough,∀ fuel stack out,
      run turn (fuel + enough) (items ++ stack) out = run turn fuel stack (out ++ text) := by
  induction prints with
  | nil => exact ⟨0,fun fuel stack out => by rw [List.append_nil]; rfl⟩
  | @cons item pushed items printed inside after taken _ _ ihBelow ihRest =>
    obtain ⟨below,runBelow⟩ := ihBelow
    obtain ⟨rest,runRest⟩ := ihRest
    refine ⟨rest + below + 1,fun fuel stack out => ?_⟩
    calc Worklist.run turn (fuel + (rest + below + 1)) (item :: items ++ stack) out
        = Worklist.run turn (fuel + rest + below) (pushed ++ (items ++ stack)) (out ++ printed) := by
          rw [← Nat.add_assoc,← Nat.add_assoc,List.cons_append,Worklist.run,taken]
          rfl
      _ = Worklist.run turn fuel stack (out ++ printed ++ inside ++ after) := by
          rw [runBelow,runRest]
      _ = Worklist.run turn fuel stack (out ++ (printed ++ inside ++ after)) := by
          simp only [List.append_assoc]

theorem Prints.finishes (prints : Prints turn items text) (out : List τ) :
    ∃ enough,∀ fuel,Worklist.run turn (fuel + enough) items out = some (out ++ text) := by
  obtain ⟨enough,runs⟩ := prints.run
  refine ⟨enough,fun fuel => ?_⟩
  have ended := runs fuel [] out
  rw [List.append_nil] at ended
  rw [ended]
  cases fuel <;> rfl

end Sharko.Library.Worklist
