import Mathlib
import Sharko.Library.FiniteMap

/-! One tier of a cache with least-recently-used eviction: a map whose values may
hold a slot, that is a recency number and a weight; the order from recency
numbers to keys that mirrors the slots; and the counter of the weights. -/

namespace Sharko.Library
open FiniteMap

variable {α β : Type*} [DecidableEq α]

def slotWeight (slot : β → Option (Nat × Nat)) (v : β) : Nat := (slot v).elim 0 Prod.snd

def relist (order : FiniteMap Nat α) (k : α) (old new : Option (Nat × Nat)) : FiniteMap Nat α :=
  let cleared := old.elim order fun held => order.erase held.1
  new.elim cleared fun held => cleared.insert held.1 k

def reweigh (sum : Nat) (old new : Option (Nat × Nat)) : Nat :=
  sum - old.elim 0 Prod.snd + new.elim 0 Prod.snd

omit [DecidableEq α] in
theorem relist_lookup (order : FiniteMap Nat α) (k : α) (old new : Option (Nat × Nat)) (s : Nat) :
    (relist order k old new).lookup s =
      if new.map Prod.fst = some s then some k
      else if old.map Prod.fst = some s then none else order.lookup s := by
  cases old <;> cases new <;> simp [relist,lookup_insert_if,lookup_erase_if,eq_comm]

structure Recency (slot : β → Option (Nat × Nat)) (entries : FiniteMap α β)
    (order : FiniteMap Nat α) (sum last : Nat) : Prop where
  ranked : ∀ s k, order.lookup s = some k ↔
    ∃ v w, entries.lookup k = some v ∧ slot v = some (s,w)
  summed : sum = total (slotWeight slot) entries
  recent : ∀ s k, order.lookup s = some k → s ≤ last

namespace Recency

variable {slot : β → Option (Nat × Nat)} {entries entries' : FiniteMap α β}
  {order order' : FiniteMap Nat α} {sum sum' last last' : Nat}

theorem held_iff (slot : β → Option (Nat × Nat)) (o : Option β) (s : Nat) :
    (∃ v w, o = some v ∧ slot v = some (s,w)) ↔ (o.bind slot).map Prod.fst = some s := by
  cases o <;> simp

theorem weight_bind (slot : β → Option (Nat × Nat)) (o : Option β) :
    o.elim 0 (slotWeight slot) = (o.bind slot).elim 0 Prod.snd := by
  cases o <;> rfl

theorem start (slot : β → Option (Nat × Nat)) : Recency slot (∅ : FiniteMap α β) (∅ : FiniteMap Nat α) 0 0 where
  ranked := by simp
  summed := rfl
  recent := by simp

theorem weight_le (tier : Recency slot entries order sum last) {k : α} {v : β} {s w : Nat}
    (present : entries.lookup k = some v) (held : slot v = some (s,w)) : w ≤ sum := by
  have bound := weight_le_total (slotWeight slot) present
  rw [← tier.summed] at bound
  simpa [slotWeight,held] using bound

theorem empty_sum (tier : Recency slot entries order sum last)
    (nothing : ∀ s, order.lookup s = none) : sum = 0 := by
  rw [tier.summed]
  apply total_zero
  intro k v present
  cases held : slot v with
  | none => simp [slotWeight,held]
  | some pair =>
    have listed := (tier.ranked pair.1 k).mpr ⟨v,pair.2,present,held⟩
    rw [nothing] at listed
    cases listed

theorem advance (tier : Recency slot entries order sum last) (later : last ≤ last') :
    Recency slot entries order sum last' where
  ranked := tier.ranked
  summed := tier.summed
  recent s k listed := (tier.recent s k listed).trans later

/-- The slot of one key changes from `old` to `new`: the order forgets the old
number and lists the new one, and the counter moves by the difference. -/
theorem change (tier : Recency slot entries order sum last) (k : α) (old new : Option (Nat × Nat))
    (before : (entries.lookup k).bind slot = old) (after : (entries'.lookup k).bind slot = new)
    (others : ∀ j, j ≠ k → entries'.lookup j = entries.lookup j) (advanced : last ≤ last')
    (fresh : ∀ s w, new = some (s,w) → old.map Prod.fst = some s ∨ last < s ∧ s ≤ last') :
    Recency slot entries' (relist order k old new) (reweigh sum old new) last' := by
  have was : ∀ s, order.lookup s = some k ↔ old.map Prod.fst = some s := by
    intro s
    rw [tier.ranked,held_iff,before]
  have now : ∀ s, (∃ v w, entries'.lookup k = some v ∧ slot v = some (s,w)) ↔
      new.map Prod.fst = some s := by
    intro s
    rw [held_iff,after]
  have limit : ∀ s, new.map Prod.fst = some s → old.map Prod.fst = some s ∨ last < s ∧ s ≤ last' := by
    intro s named
    obtain ⟨⟨s',w⟩,rfl,rfl⟩ := Option.map_eq_some_iff.mp named
    exact fresh s' w rfl
  refine ⟨?_,?_,?_⟩
  · intro s j
    rw [relist_lookup]
    by_cases same : j = k
    · subst same
      rw [now]
      by_cases named : new.map Prod.fst = some s
      · simp [named]
      · have unlisted : (if old.map Prod.fst = some s then none else order.lookup s) ≠ some j := by
          split_ifs with dropped
          · simp
          · exact fun listed => dropped ((was s).mp listed)
        simpa [named] using unlisted
    · rw [others j same,← tier.ranked]
      by_cases named : new.map Prod.fst = some s
      · have other : order.lookup s ≠ some j := by
          intro listed
          rcases limit s named with kept | ⟨above,_⟩
          · rw [(was s).mpr kept] at listed
            exact same (Option.some.inj listed).symm
          · exact absurd (tier.recent s j listed) (Nat.not_le.mpr above)
        simpa [named,Ne.symm same] using other
      · rw [if_neg named]
        split_ifs with dropped
        · have listed := (was s).mpr dropped
          simp [listed,Ne.symm same]
        · rfl
  · have moved := total_change (slotWeight slot) k others
    have split := total_split (slotWeight slot) entries k
    rw [weight_bind,weight_bind,before,after,← tier.summed] at moved
    rw [weight_bind,before,← tier.summed] at split
    unfold reweigh
    omega
  · intro s j listed
    rw [relist_lookup] at listed
    by_cases named : new.map Prod.fst = some s
    · rcases limit s named with kept | ⟨_,below⟩
      · exact (tier.recent s k ((was s).mpr kept)).trans advanced
      · exact below
    · rw [if_neg named] at listed
      split_ifs at listed with dropped
      exact (tier.recent s j listed).trans advanced

theorem keep (tier : Recency slot entries order sum last) (k : α)
    (same : (entries'.lookup k).bind slot = (entries.lookup k).bind slot)
    (others : ∀ j, j ≠ k → entries'.lookup j = entries.lookup j) : Recency slot entries' order sum last := by
  have agree : ∀ j, (entries'.lookup j).bind slot = (entries.lookup j).bind slot := by
    intro j
    by_cases here : j = k
    · rw [here,same]
    · rw [others j here]
  refine ⟨?_,?_,tier.recent⟩
  · intro s j
    rw [tier.ranked,held_iff,held_iff,agree j]
  · have moved := total_change (slotWeight slot) k others
    rw [weight_bind,weight_bind,same] at moved
    rw [tier.summed]
    omega

theorem renumber (tier : Recency slot entries order sum last) {k : α} {v v' : β} {s : Nat}
    (before : entries.lookup k = some v) (after : entries'.lookup k = some v')
    (others : ∀ j, j ≠ k → entries'.lookup j = entries.lookup j)
    (moved : slot v' = (slot v).map fun held => (s,held.2)) (later : last < s) (advanced : s ≤ last') :
    Recency slot entries' (relist order k (slot v) (slot v')) sum last' := by
  have changed := tier.change k (slot v) (slot v') (by simp [before])
    (by simp [after]) others (later.le.trans advanced) (by
      intro s' w held
      rw [moved] at held
      obtain ⟨_,_,pair⟩ := Option.map_eq_some_iff.mp held
      cases pair
      exact .inr ⟨later,advanced⟩)
  have same : reweigh sum (slot v) (slot v') = sum := by
    rw [moved]
    cases held : slot v with
    | none => rfl
    | some pair =>
      have bound := tier.weight_le before held
      simp only [reweigh,Option.map_some,Option.elim_some]
      omega
  rwa [same] at changed

theorem popped (tier : Recency slot entries order sum last) {s : Nat} {k : α} {rest : FiniteMap Nat α}
    (first : popFirst order = some ((s,k),rest)) :
    ∃ v w, entries.lookup k = some v ∧ slot v = some (s,w) ∧ rest = order.erase s := by
  obtain ⟨listed,rfl⟩ := popFirst_some first
  obtain ⟨v,w,present,held⟩ := (tier.ranked s k).mp listed
  exact ⟨v,w,present,held,rfl⟩

theorem inOrder_held (tier : Recency slot entries order sum last) {k : α} (listed : k ∈ inOrder order) :
    ∃ v s w,entries.lookup k = some v ∧ slot v = some (s,w) := by
  obtain ⟨s,here⟩ := mem_inOrder.mp listed
  obtain ⟨v,w,present,held⟩ := (tier.ranked s k).mp here
  exact ⟨v,s,w,present,held⟩

theorem sum_inOrder (tier : Recency slot entries order sum last) :
    sum = ((inOrder order).map fun k => (entries.lookup k).elim 0 (slotWeight slot)).sum := by
  induction left : order.keys.card generalizing entries order sum with
  | zero =>
    have nothing : ∀ s,order.lookup s = none := by
      intro s
      rw [Finmap.lookup_eq_none,← Finmap.mem_keys,Finset.card_eq_zero.mp left]
      exact Finset.notMem_empty s
    rw [inOrder_empty nothing,tier.empty_sum nothing]
    rfl
  | succ n ih =>
    cases first : popFirst order with
    | none =>
      have nothing := popFirst_none first
      rw [inOrder_empty nothing,tier.empty_sum nothing]
      rfl
    | some popped =>
      obtain ⟨⟨s,k⟩,rest⟩ := popped
      obtain ⟨v,w,present,held,rfl⟩ := tier.popped first
      have fewer := card_erase (popFirst_some first).1
      have others : ∀ j,j ≠ k → (entries.erase k).lookup j = entries.lookup j := by
        intro j other
        rw [lookup_erase_if,if_neg other]
      have gone : (entries.erase k).lookup k = none := Finmap.lookup_erase k entries
      have less := tier.change k (some (s,w)) none (by rw [present]; exact held) (by rw [gone]; rfl)
        others le_rfl (by simp)
      have later := ih less (by rw [relist]; exact Nat.succ.inj (fewer.trans left))
      have same : ∀ j ∈ inOrder (order.erase s),(entries.erase k).lookup j = entries.lookup j := by
        intro j listed
        obtain ⟨v',-,-,there,-⟩ := less.inOrder_held listed
        by_cases here : j = k
        · rw [here,gone] at there
          cases there
        · exact others j here
      have weights : ((inOrder (order.erase s)).map fun j =>
          ((entries.erase k).lookup j).elim 0 (slotWeight slot)) =
          (inOrder (order.erase s)).map fun j => (entries.lookup j).elim 0 (slotWeight slot) := by
        apply List.map_congr_left
        intro j listed
        rw [same j listed]
      have heavy := tier.weight_le present held
      rw [inOrder_popFirst first,List.map_cons,List.sum_cons,present,← weights]
      simp only [relist,reweigh,Option.elim_some,Option.elim_none] at later
      rw [← later,Option.elim_some,slotWeight,held,Option.elim_some]
      omega

end Recency

end Sharko.Library
