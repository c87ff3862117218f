import Mathlib.Data.List.Nodup
import Sharko.Forms.Selects

/-! When the selectedness that is worked out from the record is the one that the standard keeps. -/

namespace Sharko.Forms.Selects

open Library

namespace Select

variable {s : Select}

def fallback (s : Select) : Option ℕ := if s.displaySize = 1 then s.firstEnabled else none

/-- Where nothing is selected any more, the record has nothing else to show than the standard. -/
def Falls (s : Select) : Prop :=
  (∀ last ∈ (s.options.filter s.marked).getLast?,s.fallback = some last) ∧
    ((∀ o ∈ s.options,s.marked o = false) → s.anyExplicit = true → s.fallback = none)

theorem picked_of_marked {last : ℕ} (is : (s.options.filter s.marked).getLast? = some last) :
    s.picked = some last := by
  simp [picked,is]

theorem marked_of_last {last : ℕ} (is : (s.options.filter s.marked).getLast? = some last) :
    last ∈ s.options ∧ s.marked last = true :=
  List.mem_filter.mp (List.mem_of_getLast? is)

theorem last_eq_none : (s.options.filter s.marked).getLast? = none ↔ ∀ o ∈ s.options,s.marked o = false := by
  simp

theorem picked_of_unmarked (none : ∀ o ∈ s.options,s.marked o = false) :
    s.picked = if s.anyExplicit then .none else s.fallback := by
  rw [picked,last_eq_none.mpr none,fallback]
  cases s.anyExplicit <;> simp

theorem firstEnabled_mem {o : ℕ} (is : s.firstEnabled = some o) : o ∈ s.options :=
  List.mem_of_find?_eq_some is

theorem fallback_mem {o : ℕ} (is : s.fallback = some o) : o ∈ s.options := by
  unfold fallback at is
  split at is
  · exact firstEnabled_mem is
  · cases is

theorem picked_mem {o : ℕ} (is : s.picked = some o) : o ∈ s.options := by
  cases last : (s.options.filter s.marked).getLast? with
  | some x =>
    rw [picked_of_marked last] at is
    exact Option.some.inj is ▸ (marked_of_last last).1
  | none =>
    rw [picked_of_unmarked (last_eq_none.mp last)] at is
    split at is
    · cases is
    · exact fallback_mem is

theorem Falls.picked (falls : s.Falls) : s.picked = s.fallback := by
  cases last : (s.options.filter s.marked).getLast? with
  | some x => rw [picked_of_marked last,falls.1 x last]
  | none =>
    have unmarked := last_eq_none.mp last
    rw [picked_of_unmarked unmarked]
    split
    · rename_i explicit
      exact (falls.2 unmarked explicit).symm
    · rfl

end Select

/-- The standard has the one option selected, or none. -/
def Shows (s : Select) (t : Standard) (p : Option ℕ) : Prop :=
  (∀ o ∈ s.options,t.selectedness o = decide (p = some o)) ∧ ∀ x ∈ p,x ∈ s.options

namespace Standard

variable {s : Select} {t : Standard} {p : Option ℕ}

theorem settle_multiple (multiple : s.multiple = true) : t.settle s = t := by
  rw [settle,if_pos multiple]

theorem settle_dirtiness : (t.settle s).dirtiness = t.dirtiness := by
  unfold settle
  split
  · rfl
  split
  · rfl
  split
  · split <;> rfl
  · rfl

theorem settle_shows (single : s.multiple = false) (shows_ : Shows s t p) :
    Shows s (t.settle s) (p.or s.fallback) := by
  obtain ⟨only,inside⟩ := shows_
  have filtered : ∀ x,x ∈ s.options.filter t.selectedness ↔ x ∈ s.options ∧ p = some x := by
    intro x
    rw [List.mem_filter]
    exact and_congr_right fun member => by rw [only x member,decide_eq_true_iff]
  rw [settle,if_neg (by simp [single])]
  split
  · rename_i last is
    have chosen := (filtered last).mp (List.mem_of_getLast? is)
    rw [chosen.2,Option.some_or]
    refine ⟨?_,?_⟩
    · intro o member
      simp only [member,if_true,Option.some.injEq]
      exact decide_eq_decide.mpr eq_comm
    · rintro x ⟨⟩
      exact chosen.1
  · rename_i is
    have none : p = .none := by
      cases p with
      | none => rfl
      | some x =>
        have member := (filtered x).mpr ⟨inside x rfl,rfl⟩
        rw [List.getLast?_eq_none_iff.mp is] at member
        cases member
    subst none
    rw [Option.none_or]
    refine ⟨?_,fun x is => Select.fallback_mem is⟩
    intro o member
    have unselected : t.selectedness o = false := by simpa using only o member
    unfold Select.fallback
    split
    · rename_i first isFirst
      split
      · rw [isFirst]
        change Function.update t.selectedness first true o = _
        rw [Function.update_apply,unselected]
        by_cases same : o = first <;> simp [same,eq_comm]
      · simpa using unselected
    · rename_i noFirst
      simpa [noFirst] using unselected

end Standard

namespace Pair

theorem agrees_single {p : Pair} (single : p.code.multiple = false) :
    p.Agrees ↔ Shows p.code p.standard p.code.picked := by
  constructor
  · intro agrees
    refine ⟨?_,fun x is => Select.picked_mem is⟩
    intro o member
    have here := agrees (o,p.code.isSelected o) (List.mem_map.mpr ⟨o,member,rfl⟩)
    simpa [Select.isSelected,single] using here.symm
  · rintro ⟨only,-⟩ e member
    obtain ⟨o,inside,rfl⟩ := List.mem_map.mp member
    simp [Select.isSelected,single,only o inside]

theorem agrees_multiple {p : Pair} (multiple : p.code.multiple = true) :
    p.Agrees ↔ ∀ o ∈ p.code.options,p.code.marked o = p.standard.selectedness o := by
  constructor
  · intro agrees o member
    have here := agrees (o,p.code.isSelected o) (List.mem_map.mpr ⟨o,member,rfl⟩)
    simpa [Select.isSelected,multiple] using here
  · rintro only e member
    obtain ⟨o,inside,rfl⟩ := List.mem_map.mp member
    simp [Select.isSelected,multiple,only o inside]

/-- An option comes in as the record has it, and behind those that are marked; one that is not
marked does not come before the one that is shown for want of any. A selected option goes only if
what the record marks besides is what the standard falls back to. An attribute comes and goes where
it has its say. -/
def Allowed (p : Pair) : Action → Prop
  | .insert o i group =>
    o ∉ p.code.options → p.code.marked o = p.standard.selectedness o ∧
      (p.code.multiple = false → p.code.marked o = true →
        ∀ x ∈ p.code.options.drop i,p.code.marked x = false) ∧
      (p.code.multiple = false → p.code.marked o = false →
        (∃ x ∈ p.code.options,p.code.marked x = true) ∨
        (p.code.insert o i group).fallback = none ∨
        (p.code.insert o i group).anyExplicit = false ∧
          (p.code.fallback = none ∨ (p.code.insert o i group).fallback ≠ some o))
  | .remove o =>
    p.code.multiple = false → (∀ x ∈ p.code.options,x ≠ o → p.standard.selectedness x = false) →
      (p.code.remove o).Falls
  | .setAttr o =>
    (p.code.el o).selected = false →
      ((p.code.selectedness o).isSome = true →
        p.standard.dirtiness o = true ∨ p.standard.selectedness o = true) ∧
      (p.code.selectedness o = none → p.code.multiple = false → o ∈ p.code.options →
        ∀ x ∈ p.code.options.drop (p.code.options.idxOf o + 1),p.code.marked x = false)
  | .removeAttr o =>
    (p.code.el o).selected = true →
      ((p.code.selectedness o).isSome = true →
        p.standard.dirtiness o = true ∨ p.standard.selectedness o = false) ∧
      (p.code.selectedness o = none → p.code.multiple = false → o ∈ p.code.options →
        p.standard.selectedness o = true →
          (∀ x ∈ p.code.options,p.code.marked x = true → x = o) ∧
          (p.code.anyExplicit = false → p.code.fallback = none))
  | .setSelected o selected =>
    selected = false → p.code.multiple = false → o ∈ p.code.options →
      ((∃ x ∈ p.code.options,x ≠ o ∧ p.standard.selectedness x = true) →
        ∃ x ∈ p.code.options,p.code.marked x = true) ∧
      ((∀ x ∈ p.code.options,x ≠ o → p.standard.selectedness x = false) →
        (p.code.setOptionSelected o false).Falls)
  | _ => True

structure Invariant (p : Pair) : Prop where
  nodup : p.code.options.Nodup
  known : ∀ o,p.standard.dirtiness o = true → (p.code.selectedness o).isSome = true
  agrees : p.Agrees

theorem start_invariant (multiple : Bool) (size : Option String) (el : ℕ → OptionEl) :
    Invariant (start multiple size el) where
  nodup := List.nodup_nil
  known := nofun
  agrees := nofun

end Pair

end Sharko.Forms.Selects
