import Mathlib.Order.Basic

/-! Values of a changing state that are kept with the version they were computed at, and read again
without a computation while the version is the same. -/

namespace Sharko.Library

/-- Each key has a value and a version in every state; it is dirty after a change of the value that
the version does not show. -/
structure Versions (State Key Value Stamp : Type*) where
  stamp : State → Key → Stamp
  value : State → Key → Value
  dirty : State → Key → Prop

namespace Versions

variable {State Key Value Stamp : Type*} (v : Versions State Key Value Stamp)

abbrev Entry (Stamp Value : Type*) := Option (Stamp × Value)

def read [DecidableEq Stamp] (s : State) (key : Key) : Entry Stamp Value → Stamp × Value
  | some (stamp,value) =>
    if stamp = v.stamp s key then (stamp,value) else (v.stamp s key,v.value s key)
  | none => (v.stamp s key,v.value s key)

variable [PartialOrder Stamp]

/-- What is kept is of the past and still right where the version is that of now. -/
def Right (s : State) (key : Key) (entry : Entry Stamp Value) : Prop :=
  ∀ stamp value, entry = some (stamp,value) →
    stamp ≤ v.stamp s key ∧ (stamp = v.stamp s key → ¬v.dirty s key → value = v.value s key)

/-- A step does not let the version of a key fall back and shows every change of its value, unless
the key is dirty. -/
def Advances (s next : State) (key : Key) : Prop :=
  v.stamp s key ≤ v.stamp next key ∧
    (v.stamp next key = v.stamp s key → ¬v.dirty next key →
      ¬v.dirty s key ∧ v.value next key = v.value s key)

variable {v} {s middle next : State} {key : Key} {entry : Entry Stamp Value}

theorem Advances.trans (first : v.Advances s middle key) (second : v.Advances middle next key) :
    v.Advances s next key := by
  obtain ⟨grows,shows⟩ := first
  obtain ⟨grows',shows'⟩ := second
  refine ⟨grows.trans grows',?_⟩
  intro same clean
  have still : v.stamp middle key = v.stamp s key := le_antisymm (same ▸ grows') grows
  obtain ⟨between,kept'⟩ := shows' (same.trans still.symm) clean
  obtain ⟨before,kept⟩ := shows still between
  exact ⟨before,kept'.trans kept⟩

theorem right_none : v.Right s key none := by
  intro stamp value kept
  cases kept

theorem Right.advance (right : v.Right s key entry) (advances : v.Advances s next key) :
    v.Right next key entry := by
  intro stamp value kept
  obtain ⟨past,same⟩ := right stamp value kept
  obtain ⟨grows,shows⟩ := advances
  refine ⟨past.trans grows,?_⟩
  intro now clean
  have still : v.stamp next key = v.stamp s key := le_antisymm (now ▸ past) grows
  obtain ⟨before,unchanged⟩ := shows still clean
  rw [unchanged]
  exact same (now.trans still) before

theorem right_read [DecidableEq Stamp] (right : v.Right s key entry) :
    v.Right s key (some (v.read s key entry)) := by
  have computed : v.Right s key (some (v.stamp s key,v.value s key)) := by
    intro stamp value kept
    cases kept
    exact ⟨le_rfl,fun _ _ => rfl⟩
  cases entry with
  | none => exact computed
  | some kept =>
    rw [read]
    split
    · exact right
    · exact computed

theorem read_value [DecidableEq Stamp] (right : v.Right s key entry) (clean : ¬v.dirty s key) :
    (v.read s key entry).2 = v.value s key := by
  cases entry with
  | none => rfl
  | some kept =>
    rw [read]
    split
    next same => exact (right _ _ rfl).2 same clean
    next => rfl

end Versions

end Sharko.Library
