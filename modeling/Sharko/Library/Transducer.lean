import Mathlib.Data.List.Basic
import Mathlib.Data.List.Flatten

/-! Machines that write as they read and have a last word at the end of the input. A sequence
that is cut into pieces is read piece by piece as it is read at once, where every cut is one at
which the last word changes nothing. -/

namespace Sharko.Library

structure Transducer (σ α β : Type*) where
  start : σ
  next : σ → α → σ × List β
  finish : σ → List β
  quiet : finish start = []

namespace Transducer

variable {σ α β : Type*} (T : Transducer σ α β)

def run : σ → List α → σ × List β
  | s,[] => (s,[])
  | s,a :: rest => ((run (T.next s a).1 rest).1,(T.next s a).2 ++ (run (T.next s a).1 rest).2)

def emit (s : σ) (input : List α) : List β := (T.run s input).2 ++ T.finish (T.run s input).1

def read (input : List α) : List β := T.emit T.start input

def Calm (s : σ) (rest : List α) : Prop :=
  s = T.start ∨ rest = [] ∨
    ∃ a later,rest = a :: later ∧ T.next s a = ((T.next T.start a).1,T.finish s ++ (T.next T.start a).2)

/-- No piece ends where the machine is in the midst of something that the next ones go on with. -/
def Unbroken : List (List α) → Prop
  | [] => True
  | piece :: rest => T.Calm (T.run T.start piece).1 rest.flatten ∧ Unbroken rest

variable {T}

theorem run_append (s : σ) (first second : List α) : T.run s (first ++ second) =
    ((T.run (T.run s first).1 second).1,(T.run s first).2 ++ (T.run (T.run s first).1 second).2) := by
  induction first generalizing s with
  | nil => rfl
  | cons a rest ih => simp [run,ih]

theorem emit_append (s : σ) (first second : List α) :
    T.emit s (first ++ second) = (T.run s first).2 ++ T.emit (T.run s first).1 second := by
  simp [emit,run_append]

theorem emit_cons (s : σ) (a : α) (rest : List α) :
    T.emit s (a :: rest) = (T.next s a).2 ++ T.emit (T.next s a).1 rest := by
  simp [emit,run]

theorem read_eq (input : List α) :
    T.read input = (T.run T.start input).2 ++ T.finish (T.run T.start input).1 := rfl

theorem read_eq_append (first second : List α) :
    T.read (first ++ second) = (T.run T.start first).2 ++ T.emit (T.run T.start first).1 second :=
  emit_append T.start first second

@[simp] theorem read_nil : T.read [] = [] := by simp [read,emit,run,T.quiet]

theorem Calm.emit {s : σ} {rest : List α} (calm : T.Calm s rest) :
    T.emit s rest = T.finish s ++ T.read rest := by
  rcases calm with rfl | rfl | ⟨a,later,rfl,same⟩
  · rw [T.quiet]
    rfl
  · rw [read_nil,List.append_nil]
    rfl
  · rw [emit_cons,read,emit_cons,same,List.append_assoc]

theorem read_append {piece rest : List α} (calm : T.Calm (T.run T.start piece).1 rest) :
    T.read (piece ++ rest) = T.read piece ++ T.read rest := by
  rw [read_eq_append,calm.emit,← List.append_assoc,read_eq piece]

theorem Unbroken.read_flatten {pieces : List (List α)} (unbroken : T.Unbroken pieces) :
    T.read pieces.flatten = (pieces.map T.read).flatten := by
  induction pieces with
  | nil => exact read_nil
  | cons piece rest ih =>
    rw [List.flatten_cons,read_append unbroken.1,ih unbroken.2]
    rfl

/-- Where every symbol and every way to stop in the midst of something is answered, the answer
to an inhabited sequence is. -/
theorem emit_ne_nil (stops : ∀ s,s ≠ T.start → T.finish s ≠ [])
    (answers : ∀ s a,(T.next s a).2 ≠ [] ∨ (T.next s a).1 ≠ T.start) {s : σ} {input : List α}
    (something : s ≠ T.start ∨ input ≠ []) : T.emit s input ≠ [] := by
  induction input generalizing s with
  | nil =>
    rcases something with inside | inhabited
    · exact stops s inside
    · exact absurd rfl inhabited
  | cons a rest ih =>
    rw [emit_cons]
    rcases answers s a with said | inside
    · exact List.append_ne_nil_of_left_ne_nil said _
    · exact List.append_ne_nil_of_right_ne_nil _ (ih (.inl inside))

theorem unbroken_filter {f : List α → List α} (empty : f [] = []) {pieces : List (List α)} :
    T.Unbroken ((pieces.filter (· ≠ [])).map f) ↔ T.Unbroken (pieces.map f) := by
  have flat : ∀ pieces : List (List α),((pieces.filter (· ≠ [])).map f).flatten = (pieces.map f).flatten := by
    intro pieces
    induction pieces with
    | nil => rfl
    | cons piece rest ih =>
      by_cases nothing : piece = []
      · simpa [nothing,empty] using ih
      · simpa [nothing] using ih
  induction pieces with
  | nil => exact Iff.rfl
  | cons piece rest ih =>
    by_cases nothing : piece = []
    · rw [List.filter_cons_of_neg (by simp [nothing]),List.map_cons,nothing,empty]
      exact ih.trans ⟨fun unbroken => ⟨.inl rfl,unbroken⟩,fun unbroken => unbroken.2⟩
    · rw [List.filter_cons_of_pos (by simp [nothing]),List.map_cons,List.map_cons]
      unfold Unbroken
      rw [flat]
      exact and_congr Iff.rfl ih

/-- Where the last word always speaks up in the midst of something, pieces that are read
without it are unbroken. -/
theorem unbroken_of_quiet {spoken : β → Prop}
    (speaks : ∀ s,(∀ b ∈ T.finish s,¬ spoken b) → s = T.start) {pieces : List (List α)}
    (silent : ∀ piece ∈ pieces,∀ b ∈ T.read piece,¬ spoken b) : T.Unbroken pieces := by
  induction pieces with
  | nil => exact trivial
  | cons piece rest ih =>
    refine ⟨.inl (speaks _ ?_),ih fun other listed => silent other (List.mem_cons_of_mem _ listed)⟩
    intro b last
    exact silent piece List.mem_cons_self b (List.mem_append_right _ last)

end Transducer

end Sharko.Library
