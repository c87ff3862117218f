import Mathlib.Data.List.Nodup

/-! A map from elements to groups together with the lists of members kept for it:
the lists are the fibres of the map, and only groups with members have one. -/

namespace Sharko.Library

variable {α γ : Type*} [DecidableEq α] [DecidableEq γ]

structure Grouping (group : α → Option γ) (members : γ → Option (List α)) : Prop where
  nonempty : ∀ c l, members c = some l → l ≠ []
  nodup : ∀ c l, members c = some l → l.Nodup
  exact : ∀ c l, members c = some l → ∀ a, a ∈ l ↔ group a = some c
  listed : ∀ a c, group a = some c → (members c).isSome

def withoutMember (members : γ → Option (List α)) (a : α) (c : γ) : Option (List α) :=
  ((members c).map (·.filter (· ≠ a))).filter (¬ ·.isEmpty)

def withMember (members : γ → Option (List α)) (a : α) (c : γ) : List α :=
  let l := (members c).getD []
  if l.contains a then l else l ++ [a]

omit [DecidableEq γ] in
theorem withoutMember_some {members : γ → Option (List α)} {a : α} {c : γ} {l' : List α}
    (found : withoutMember members a c = some l') :
    ∃ l, members c = some l ∧ l' = l.filter (· ≠ a) ∧ l' ≠ [] := by
  obtain ⟨mapped,filled⟩ := Option.filter_eq_some_iff.mp found
  obtain ⟨l,here,rfl⟩ := Option.map_eq_some_iff.mp mapped
  exact ⟨l,here,rfl,by simpa using filled⟩

namespace Grouping

variable {group : α → Option γ} {members : γ → Option (List α)}

omit [DecidableEq α] [DecidableEq γ] in
theorem start : Grouping (fun _ : α => (none : Option γ)) (fun _ : γ => (none : Option (List α))) where
  nonempty := by simp
  nodup := by simp
  exact := by simp
  listed := by simp

theorem leave (groups : Grouping group members) {a : α} {c : γ} (inside : group a = some c) :
    Grouping (fun j => if j = a then none else group j)
      (fun d => if d = c then withoutMember members a c else members d) := by
  refine ⟨?_,?_,?_,?_⟩
  · intro d l' found
    split_ifs at found with same
    · obtain ⟨l,here,filtered,filled⟩ := withoutMember_some found
      exact filled
    · exact groups.nonempty d l' found
  · intro d l' found
    split_ifs at found with same
    · obtain ⟨l,here,rfl,filled⟩ := withoutMember_some found
      exact (groups.nodup c l here).filter _
    · exact groups.nodup d l' found
  · intro d l' found j
    split_ifs at found with same
    · obtain ⟨l,here,rfl,filled⟩ := withoutMember_some found
      subst same
      rw [List.mem_filter,groups.exact d l here]
      by_cases self : j = a <;> simp [self]
    · rw [groups.exact d l' found]
      by_cases self : j = a
      · simp [self,inside,Ne.symm same]
      · simp [self]
  · intro j d belongs
    split_ifs at belongs with self
    have kept := groups.listed j d belongs
    by_cases same : d = c
    · subst same
      obtain ⟨l,here⟩ := Option.isSome_iff_exists.mp kept
      have remains : ∃ x, x ∈ l ∧ ¬ x = a := ⟨j,(groups.exact d l here j).mpr belongs,self⟩
      simpa [withoutMember,here] using remains
    · simpa [same] using kept

theorem join (groups : Grouping group members) {a : α} {c : γ} (free : ∀ d, group a = some d → d = c) :
    Grouping (fun j => if j = a then some c else group j)
      (fun d => if d = c then some (withMember members a c) else members d) := by
  have inside : ∀ j, j ∈ withMember members a c ↔ j = a ∨ group j = some c := by
    intro j
    have before : ∀ j, j ∈ (members c).getD [] ↔ group j = some c := by
      intro j
      cases found : members c with
      | none =>
        have empty : group j ≠ some c := by
          intro belongs
          simpa [found] using groups.listed j c belongs
        simp [empty]
      | some l => exact groups.exact c l found j
    unfold withMember
    simp only
    split_ifs with already
    · rw [before]
      have mine := (before a).mp (by simpa using already)
      constructor
      · exact Or.inr
      · rintro (rfl | belongs)
        · exact mine
        · exact belongs
    · rw [List.mem_append,before,List.mem_singleton,or_comm]
  have distinct : (withMember members a c).Nodup := by
    have before : ((members c).getD []).Nodup := by
      cases found : members c with
      | none => exact List.nodup_nil
      | some l => exact groups.nodup c l found
    unfold withMember
    simp only
    split_ifs with already
    · exact before
    · rw [List.nodup_append]
      refine ⟨before,List.nodup_singleton a,?_⟩
      intro x member y single equal
      rw [List.mem_singleton.mp single] at equal
      exact already (by simpa using equal ▸ member)
  refine ⟨?_,?_,?_,?_⟩
  · intro d l found
    split_ifs at found with same
    · cases found
      exact List.ne_nil_of_mem ((inside a).mpr (.inl rfl))
    · exact groups.nonempty d l found
  · intro d l found
    split_ifs at found with same
    · cases found
      exact distinct
    · exact groups.nodup d l found
  · intro d l found j
    split_ifs at found with same
    · cases found
      rw [inside,same]
      by_cases self : j = a <;> simp [self]
    · rw [groups.exact d l found]
      by_cases self : j = a
      · subst self
        have other : group j ≠ some d := fun belongs => same (free d belongs)
        simp [other,Ne.symm same]
      · simp [self]
  · intro j d belongs
    by_cases same : d = c
    · simp [same]
    · split_ifs at belongs with self
      · exact absurd (Option.some.inj belongs).symm same
      · simpa [same] using groups.listed j d belongs

end Grouping

end Sharko.Library
