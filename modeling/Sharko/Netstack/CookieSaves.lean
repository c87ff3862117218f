import Sharko.Library.Runs
import Mathlib.Data.List.Basic

/-! Saving the cookie jar (`save` in `crates/netstack/src/cookies.rs`, `Debouncer` and
`persist` in `core.rs`, `write_atomic` in `util.rs`). Debounced jobs and the shutdown
take their snapshots under the lock of the jar and write them without it, each to a
temporary file of its own that it renames; which of these steps fail is up to the
action. `save` of a jar without a path does nothing and is left out. -/

namespace Sharko.Netstack.CookieSaves
open Library

inductive Stage where
  | snapshot
  | writing
  | written
  | synced
  | renamed
  | failed
deriving DecidableEq

structure Save where
  buf : List UInt8
  tmp : Option (List UInt8)
  stage : Stage
deriving DecidableEq

def Save.finished (s : Save) : Prop := s.stage = .renamed ∨ s.stage = .failed

structure Store (Jar : Type*) where
  jar : Jar
  file : Option (List UInt8)
  saves : List Save
  renames : List Nat
  pending : Bool
  sleeping : Nat
  jobs : Nat

inductive Action (Jar : Type*) where
  | mutate (jar : Jar)
  | trigger
  | wake
  | job
  | persist
  | create (save : Nat) (created : Bool)
  | write (save : Nat) (more : Option Nat)
  | sync (save : Nat) (synced : Bool)
  | rename (save : Nat) (renamed : Bool)

namespace Store
variable {Jar : Type*}

def opened (jar : Jar) (file : Option (List UInt8)) : Store Jar := ⟨jar,file,[],[],false,0,0⟩

def update (s : Store Jar) (i : Nat) (save : Save) : Store Jar := {s with saves := s.saves.set i save}

def fail (s : Store Jar) (i : Nat) (save : Save) : Store Jar :=
  s.update i {save with tmp := none, stage := .failed}

variable (serialize : Jar → List UInt8)

def snapshot (s : Store Jar) : Store Jar :=
  {s with saves := s.saves ++ [⟨serialize s.jar,none,.snapshot⟩]}

def advance (s : Store Jar) (i : Nat) (save : Save) : Action Jar → Option (Store Jar)
  | .create _ created =>
    if save.stage ≠ .snapshot then none
    else if created then some (s.update i {save with tmp := some [], stage := .writing})
    else some (s.fail i save)
  | .write _ more =>
    match save.stage,save.tmp,more with
    | .writing,some tmp,some n =>
      let tmp := save.buf.take (tmp.length + n)
      some (s.update i {save with
        tmp := some tmp
        stage := if tmp.length = save.buf.length then .written else .writing})
    | .writing,_,_ => some (s.fail i save)
    | _,_,_ => none
  | .sync _ synced =>
    if save.stage ≠ .written then none
    else if synced then some (s.update i {save with stage := .synced})
    else some (s.fail i save)
  | .rename _ renamed =>
    if save.stage ≠ .synced then none
    else if renamed then
      some {s.update i {save with tmp := none, stage := .renamed} with
        file := save.tmp
        renames := s.renames ++ [i]}
    else some (s.fail i save)
  | _ => none

def step (s : Store Jar) : Action Jar → Option (Store Jar)
  | .mutate jar => some {s with jar := jar}
  | .trigger => some (if s.pending then s else {s with pending := true, sleeping := s.sleeping + 1})
  | .wake =>
    -- Cleared before the job runs: changes made while it saves schedule another save.
    if s.sleeping = 0 then none
    else some {s with pending := false, sleeping := s.sleeping - 1, jobs := s.jobs + 1}
  | .job => if s.jobs = 0 then none else some {s.snapshot serialize with jobs := s.jobs - 1}
  | .persist => some (s.snapshot serialize)
  | .create i created => s.saves[i]?.bind fun save => s.advance i save (.create i created)
  | .write i more => s.saves[i]?.bind fun save => s.advance i save (.write i more)
  | .sync i synced => s.saves[i]?.bind fun save => s.advance i save (.sync i synced)
  | .rename i renamed => s.saves[i]?.bind fun save => s.advance i save (.rename i renamed)

end Store

structure Coherent {Jar : Type*} (initial : Option (List UInt8)) (s : Store Jar) : Prop where
  tmp : ∀ (i : Nat) save, s.saves[i]? = some save → save.stage = .written ∨ save.stage = .synced →
    save.tmp = some save.buf
  renames : ∀ i, i ∈ s.renames ↔ ∃ save, s.saves[i]? = some save ∧ save.stage = .renamed
  file : (s.renames = [] ∧ s.file = initial) ∨ ∃ earlier i save, s.renames = earlier ++ [i] ∧
    s.saves[i]? = some save ∧ s.file = some save.buf

section
variable {Jar : Type*} {serialize : Jar → List UInt8} {initial : Option (List UInt8)} {s s' : Store Jar}

/-- A step of a save keeps its snapshot, and either renames the complete file or does
not touch the path. -/
theorem advance_cases {i : Nat} {save : Save} {a : Action Jar} (taken : s.advance i save a = some s') :
    save.stage ≠ .renamed ∧ ((∃ save', s' = s.update i save' ∧ save'.buf = save.buf ∧ save'.stage ≠ .renamed ∧
      (save'.stage = .written ∨ save'.stage = .synced →
        (save.stage = .written ∨ save.stage = .synced → save.tmp = some save.buf) →
          save'.tmp = some save'.buf)) ∨
    (save.stage = .synced ∧ s' = {s.update i {save with tmp := none, stage := .renamed} with
      file := save.tmp
      renames := s.renames ++ [i]})) := by
  have failed : ∃ save', s.fail i save = s.update i save' ∧ save'.buf = save.buf ∧ save'.stage ≠ .renamed ∧
      (save'.stage = .written ∨ save'.stage = .synced →
        (save.stage = .written ∨ save.stage = .synced → save.tmp = some save.buf) →
          save'.tmp = some save'.buf) := ⟨_,rfl,rfl,by simp,by simp⟩
  cases a with
  | create _ created =>
    simp only [Store.advance] at taken
    split_ifs at taken with other made
    · cases taken
      exact ⟨by simp_all,.inl ⟨_,rfl,rfl,by simp,by simp⟩⟩
    · cases taken
      exact ⟨by simp_all,.inl failed⟩
  | write _ more =>
    simp only [Store.advance] at taken
    split at taken
    · rename_i tmp n writing _
      cases taken
      refine ⟨by simp [writing],.inl ⟨_,rfl,rfl,?_,?_⟩⟩
      · simp only
        split_ifs <;> simp
      · simp only
        split_ifs with whole
        · intro _ _
          refine congrArg some (List.take_of_length_le ?_)
          rw [List.length_take] at whole
          omega
        · simp
    · rename_i writing _
      cases taken
      exact ⟨by simp [writing],.inl failed⟩
    · cases taken
  | sync _ synced =>
    simp only [Store.advance] at taken
    split_ifs at taken with other done
    · cases taken
      have written : save.stage = .written := not_not.mp other
      exact ⟨by simp [written],.inl ⟨_,rfl,rfl,by simp,fun _ whole => whole (.inl written)⟩⟩
    · cases taken
      exact ⟨by simp_all,.inl failed⟩
  | rename _ renamed =>
    simp only [Store.advance] at taken
    split_ifs at taken with other done
    · cases taken
      exact ⟨by simp_all,.inr ⟨not_not.mp other,rfl⟩⟩
    · cases taken
      exact ⟨by simp_all,.inl failed⟩
  | mutate _ => cases taken
  | trigger => cases taken
  | wake => cases taken
  | job => cases taken
  | persist => cases taken

theorem set_lookup {saves : List Save} {i : Nat} {save : Save} (found : saves[i]? = some save)
    (save' : Save) (j : Nat) : (saves.set i save')[j]? = if j = i then some save' else saves[j]? := by
  rw [List.getElem?_set]
  have inside := (List.getElem?_eq_some_iff.mp found).1
  by_cases same : j = i
  · simp [same,inside]
  · simp [same,Ne.symm same]

theorem Coherent.advance (ok : Coherent initial s) {i : Nat} {save : Save} {a : Action Jar}
    (found : s.saves[i]? = some save) (taken : s.advance i save a = some s') : Coherent initial s' := by
  obtain ⟨unrenamed,⟨save',rfl,buf,stage,whole⟩ | ⟨synced,rfl⟩⟩ := advance_cases taken
  · have lookup := set_lookup found save'
    have absent : i ∉ s.renames := by
      intro inside
      obtain ⟨other,found',renamed⟩ := (ok.renames i).mp inside
      rw [found] at found'
      cases found'
      exact unrenamed renamed
    refine ⟨?_,?_,?_⟩
    · intro j other found'
      rw [Store.update,lookup] at found'
      split_ifs at found' with same
      · cases found'
        exact fun ready => whole ready (ok.tmp i save found)
      · exact ok.tmp j other found'
    · intro j
      rw [Store.update,lookup]
      split_ifs with same
      · subst same
        simp [absent,stage]
      · exact ok.renames j
    · rcases ok.file with ⟨none,file⟩ | ⟨earlier,last,save₂,split,found₂,file⟩
      · exact .inl ⟨none,file⟩
      · refine .inr ⟨earlier,last,save₂,split,?_,file⟩
        rw [Store.update,lookup,if_neg]
        · exact found₂
        · rintro rfl
          exact absent (by rw [split]; simp)
  · have lookup := set_lookup found {save with tmp := none, stage := .renamed}
    refine ⟨?_,?_,?_⟩
    · intro j other found'
      simp only [Store.update] at found'
      rw [lookup] at found'
      split_ifs at found' with same
      · cases found'
        simp
      · exact ok.tmp j other found'
    · intro j
      simp only [Store.update]
      rw [lookup,List.mem_append,List.mem_singleton]
      split_ifs with same
      · simp [same]
      · simp [same,ok.renames j]
    · refine .inr ⟨s.renames,i,_,rfl,(lookup i).trans (if_pos rfl),?_⟩
      exact ok.tmp i save found (.inr synced)

theorem Coherent.snapshot (ok : Coherent initial s) : Coherent initial (s.snapshot serialize) := by
  have lookup : ∀ (j : Nat) save, (s.snapshot serialize).saves[j]? = some save →
      s.saves[j]? = some save ∨ save.stage = .snapshot := by
    intro j save found
    simp only [Store.snapshot] at found
    by_cases inside : j < s.saves.length
    · rw [List.getElem?_append_left inside] at found
      exact .inl found
    · rw [List.getElem?_append_right (Nat.le_of_not_lt inside)] at found
      have new := List.mem_singleton.mp (List.mem_of_getElem? found)
      exact .inr (by rw [new])
  have kept : ∀ (j : Nat) save, s.saves[j]? = some save →
      (s.snapshot serialize).saves[j]? = some save := by
    intro j save found
    simp only [Store.snapshot]
    rw [List.getElem?_append_left (List.getElem?_eq_some_iff.mp found).1]
    exact found
  refine ⟨?_,?_,?_⟩
  · intro j save found ready
    rcases lookup j save found with old | new
    · exact ok.tmp j save old ready
    · simp [new] at ready
  · intro j
    rw [show (s.snapshot serialize).renames = s.renames from rfl,ok.renames j]
    constructor
    · rintro ⟨save,found,renamed⟩
      exact ⟨save,kept j save found,renamed⟩
    · rintro ⟨save,found,renamed⟩
      rcases lookup j save found with old | new
      · exact ⟨save,old,renamed⟩
      · simp [new] at renamed
  · rcases ok.file with empty | ⟨earlier,last,save,split,found,file⟩
    · exact .inl empty
    · exact .inr ⟨earlier,last,save,split,kept last save found,file⟩

theorem step_coherent (ok : Coherent initial s) {a : Action Jar} (taken : s.step serialize a = some s') :
    Coherent initial s' := by
  cases a with
  | mutate jar =>
    cases taken
    exact ⟨ok.tmp,ok.renames,ok.file⟩
  | trigger =>
    cases taken
    split_ifs
    · exact ok
    · exact ⟨ok.tmp,ok.renames,ok.file⟩
  | wake =>
    simp only [Store.step] at taken
    split_ifs at taken
    cases taken
    exact ⟨ok.tmp,ok.renames,ok.file⟩
  | job =>
    simp only [Store.step] at taken
    split_ifs at taken
    cases taken
    exact ⟨ok.snapshot.tmp,ok.snapshot.renames,ok.snapshot.file⟩
  | persist =>
    cases taken
    exact ok.snapshot
  | create i created =>
    obtain ⟨save,found,taken⟩ := Option.bind_eq_some_iff.mp taken
    exact ok.advance found taken
  | write i more =>
    obtain ⟨save,found,taken⟩ := Option.bind_eq_some_iff.mp taken
    exact ok.advance found taken
  | sync i synced =>
    obtain ⟨save,found,taken⟩ := Option.bind_eq_some_iff.mp taken
    exact ok.advance found taken
  | rename i renamed =>
    obtain ⟨save,found,taken⟩ := Option.bind_eq_some_iff.mp taken
    exact ok.advance found taken

end

end Sharko.Netstack.CookieSaves
