import Sharko.Netstack.Cache.Effects

/-! Which files the critical sections give up, and what an invalidation and an
eviction leave alone. -/

namespace Sharko.Netstack.Cache
open Library FiniteMap

def Released (before after : FiniteMap Key Entry) (deletes : List Path) : Prop :=
  ∀ p ∈ deletes, (∃ e d, before.lookup p.1 = some e ∧ e.disk = some d ∧ d.generation = p.2) ∧
    ∀ e', after.lookup p.1 = some e' → e'.disk = none

section
variable {entries entries₁ entries₂ entries₃ : FiniteMap Key Entry} {first second : List Path}

theorem Released.nil (before after : FiniteMap Key Entry) : Released before after [] := by
  intro p inside
  cases inside

theorem Within.no_slot (smaller : Within entries₂ entries₁) {k : Key}
    (free : ∀ e, entries₁.lookup k = some e → e.disk = none) :
    ∀ e', entries₂.lookup k = some e' → e'.disk = none := by
  intro e' here
  obtain ⟨e,before,within⟩ := smaller k e' here
  cases held : e'.disk with
  | none => rfl
  | some d' =>
    obtain ⟨d,slot,_⟩ := within.disk d' held
    rw [free e before] at slot
    cases slot

theorem Released.append (early : Released entries₁ entries₂ first)
    (late : Released entries₂ entries₃ second) (smaller : Within entries₂ entries₁)
    (smaller' : Within entries₃ entries₂) : Released entries₁ entries₃ (first ++ second) := by
  intro p inside
  rcases List.mem_append.mp inside with given | given
  · obtain ⟨was,free⟩ := early p given
    exact ⟨was,smaller'.no_slot free⟩
  · obtain ⟨⟨e,d,here,held,named⟩,free⟩ := late p given
    obtain ⟨e₁,before,within⟩ := smaller p.1 e here
    obtain ⟨d₁,slot,same⟩ := within.disk d held
    exact ⟨⟨e₁,d₁,before,slot,same.trans named⟩,free⟩

end

namespace Index

theorem remove_file {idx : Index} {k : Key} {e : Entry} (present : idx.entries.lookup k = some e)
    (disk : Bool) : (idx.remove k disk).2 = if disk then e.disk.map fun d => (k,d.generation) else none := by
  simp [remove,present]

theorem remove_released (idx : Index) (k : Key) (disk : Bool) :
    Released idx.entries (idx.remove k disk).1.entries (idx.remove k disk).2.toList := by
  cases present : idx.entries.lookup k with
  | none =>
    rw [remove_absent present]
    exact Released.nil _ _
  | some e =>
    have gone := remove_lookup idx k k disk
    rw [if_pos rfl] at gone
    rw [remove_file present]
    intro p inside
    cases disk with
    | false => simp at inside
    | true =>
      obtain ⟨d,held,rfl⟩ := Option.map_eq_some_iff.mp (Option.mem_toList.mp inside)
      refine ⟨⟨e,d,present,held,rfl⟩,?_⟩
      intro e' here
      rw [gone] at here
      cases here

theorem removeAll_released (idx : Index) (disk : Bool) (keys : List Key) :
    Released idx.entries (idx.removeAll disk keys).1.entries (idx.removeAll disk keys).2 := by
  induction keys generalizing idx with
  | nil => exact Released.nil _ _
  | cons k rest ih =>
    exact (remove_released idx k disk).append (ih (idx.remove k disk).1) (remove_within idx k disk)
      (removeAll_within _ disk rest)

theorem invalidate_released (digest128 : List UInt8 → Key) (idx : Index) (url : Url) (disk : Bool) :
    Released idx.entries (Index.invalidate digest128 idx url disk).1.entries
      (Index.invalidate digest128 idx url disk).2 :=
  (removeAll_released idx disk _).append (removeAll_released _ disk _) (removeAll_within idx disk _)
    (removeAll_within _ disk _)

theorem dropUnreadable_released (idx : Index) (k : Key) (generation : Generation) :
    Released idx.entries (idx.dropUnreadable k generation).1.entries (idx.dropUnreadable k generation).2 := by
  unfold dropUnreadable
  simp only
  split_ifs
  · exact remove_released idx k true
  · exact Released.nil _ _

theorem place_released (idx : Index) (limits : Limits) (disk : Bool) (primary : Key)
    (names : List String) (k : Key) (value : StoredResponse) :
    Released idx.entries (idx.place limits disk primary names k value).1.entries
      (idx.place limits disk primary names k value).2.1 := by
  have deletes : (idx.place limits disk primary names k value).2.1 =
      if disk then ((if (disk && decide (value.body.length ≤ limits.diskEntryMax)) = true then none
        else (idx.oldEntry primary k).disk).map fun d => (k,d.generation)).toList else [] := by
    unfold place
    simp only [fileEntry_eq]
  rw [deletes]
  intro p inside
  have given : (disk && decide (value.body.length ≤ limits.diskEntryMax)) = false ∧
      p ∈ ((idx.oldEntry primary k).disk.map fun d => (k,d.generation)).toList := by
    split_ifs at inside with onDisk large
    · simp at inside
    · exact ⟨by simpa using large,inside⟩
    · cases inside
  obtain ⟨large,slot⟩ := given
  obtain ⟨d,held,rfl⟩ := Option.map_eq_some_iff.mp (Option.mem_toList.mp slot)
  refine ⟨?_,?_⟩
  · unfold oldEntry at held
    cases present : idx.entries.lookup k with
    | none => simp [present] at held
    | some e =>
      rw [present] at held
      exact ⟨e,d,rfl,held,rfl⟩
  · intro e' here
    rw [place_lookup,if_pos rfl] at here
    split_ifs at here
    cases here
    rw [(placed_waiting idx limits disk primary k value).2.2,large]
    rfl

theorem removeAll_lookup (idx : Index) (disk : Bool) (keys : List Key) (j : Key) :
    (idx.removeAll disk keys).1.entries.lookup j = if j ∈ keys then none else idx.entries.lookup j := by
  induction keys generalizing idx with
  | nil => rfl
  | cons k rest ih =>
    have later := ih (idx.remove k disk).1
    rw [remove_lookup] at later
    have same : (idx.removeAll disk (k :: rest)).1 = ((idx.remove k disk).1.removeAll disk rest).1 := rfl
    rw [same,later]
    by_cases first : j = k <;> simp [first]

theorem remove_variants (idx : Index) (k : Key) (disk : Bool) (p j : Key) {named : List Key}
    (after : (idx.remove k disk).1.variantsOf p = some named) (variant : j ∈ named) :
    ∃ before, idx.variantsOf p = some before ∧ j ∈ before := by
  cases present : idx.entries.lookup k with
  | none =>
    rw [remove_absent present] at after
    exact ⟨named,after,variant⟩
  | some e =>
    rw [remove_eq present,unlistDisk_eq _ k] at after
    have forgotten := forgetVariant_variants idx e.primary k p
    have after' : ((forgetVariant idx.primaries e.primary k).lookup p).map Primary.variants =
        some named := after
    rw [after'] at forgotten
    split_ifs at forgotten with same
    · obtain ⟨before,found,rfl,_⟩ := withoutMember_some forgotten.symm
      rw [same]
      exact ⟨before,found,List.mem_of_mem_filter variant⟩
    · exact ⟨named,forgotten.symm,variant⟩

theorem removeAll_variants (idx : Index) (disk : Bool) (keys : List Key) (p j : Key) {named : List Key}
    (after : (idx.removeAll disk keys).1.variantsOf p = some named) (variant : j ∈ named) :
    ∃ before, idx.variantsOf p = some before ∧ j ∈ before := by
  induction keys generalizing idx with
  | nil => exact ⟨named,after,variant⟩
  | cons k rest ih =>
    obtain ⟨middle,found,inside⟩ := ih (idx.remove k disk).1 after
    exact remove_variants idx k disk p j found inside

theorem invalidate_spares {digest128 : List UInt8 → Key} {idx : Index} {url : Url} {k : Key}
    (other : ∀ credentials named, idx.variantsOf (primaryKey digest128 url credentials) = some named →
      k ∉ named) (disk : Bool) :
    (Index.invalidate digest128 idx url disk).1.entries.lookup k = idx.entries.lookup k := by
  have apart : ∀ (idx' : Index) (credentials : Bool),
      (∀ named, idx'.variantsOf (primaryKey digest128 url credentials) = some named → k ∉ named) →
      (idx'.removeVariants (primaryKey digest128 url credentials) disk).1.entries.lookup k =
        idx'.entries.lookup k := by
    intro idx' credentials unnamed
    unfold removeVariants
    rw [removeAll_lookup]
    apply if_neg
    have unnamed' := unnamed
    unfold variantsOf at unnamed'
    cases found : (idx'.primaries.lookup (primaryKey digest128 url credentials)).map Primary.variants with
    | none => simp
    | some named => simpa using unnamed' named found
  have first := apart idx true (other true)
  have second := apart (idx.removeVariants (primaryKey digest128 url true) disk).1 false (by
    intro named found inside
    obtain ⟨before,was,member⟩ := removeAll_variants idx disk _ _ k found inside
    exact other false before was member)
  exact second.trans first

theorem evictMemoryPass_deletes (idx : Index) (disk : Bool) (s : Nat) (k : Key) :
    (evictMemoryPass idx disk s k).2 = [] := by
  unfold evictMemoryPass
  cases present : idx.entries.lookup k with
  | none => rfl
  | some e =>
    cases held : e.mem with
    | none => simp [held]
    | some m =>
      simp only [held]
      split_ifs with same kept
      · rfl
      · have slotless : e.disk = none := by
          cases slot : e.disk with
          | none => rfl
          | some d => simp [slot] at kept
        have here : ((idx.setEntry k {e with mem := none}).freeMem m.weight).entries.lookup k =
            some {e with mem := none} := by
          have now := setEntry_lookup idx k k {e with mem := none}
          rwa [if_pos rfl] at now
        rw [remove_file here]
        simp [slotless]
      · rfl

theorem evictMemoryLoop_deletes (limits : Limits) (disk : Bool) (fuel : Nat) (idx : Index)
    (deletes : List Path) : (evictMemoryLoop limits disk fuel idx deletes).2 = deletes := by
  induction fuel generalizing idx deletes with
  | zero => rfl
  | succ fuel ih =>
    unfold evictMemoryLoop
    split_ifs
    · rfl
    · cases popFirst idx.memLru with
      | none => rfl
      | some popped =>
        obtain ⟨⟨s,k⟩,rest⟩ := popped
        simp only
        rw [ih,evictMemoryPass_deletes,List.append_nil]

theorem evictMemory_deletes (idx : Index) (limits : Limits) (disk : Bool) (deletes : List Path) :
    (idx.evictMemory limits disk deletes).2 = deletes :=
  evictMemoryLoop_deletes limits disk _ idx deletes

theorem evictMemory_fits {idx : Index} {limits : Limits} (fits : idx.memBytes ≤ limits.memBudget)
    (disk : Bool) (deletes : List Path) : idx.evictMemory limits disk deletes = (idx,deletes) := by
  unfold evictMemory
  cases idx.memLru.keys.card with
  | zero => rfl
  | succ fuel => rw [evictMemoryLoop,if_pos fits]

theorem evictDisk_fits {idx : Index} {limits : Limits} (fits : idx.diskBytes ≤ limits.diskBudget)
    (deletes : List Path) : idx.evictDisk limits deletes = (idx,deletes) := by
  rw [evictDisk,if_pos fits]

theorem evictDiskPass_released (idx : Index) (s : Nat) (k : Key) :
    Released idx.entries (evictDiskPass idx s k).1.entries (evictDiskPass idx s k).2 := by
  unfold evictDiskPass
  cases present : idx.entries.lookup k with
  | none => exact Released.nil _ _
  | some e =>
    cases held : e.disk with
    | none =>
      simp only [takeDisk,held]
      split_ifs <;> exact Released.nil _ _
    | some d =>
      by_cases same : d.seq = s
      · simp only [takeDisk,held,if_pos same]
        have here : ((idx.setEntry k {e with disk := none}).freeDisk d.size).entries.lookup k =
            some {e with disk := none} := by
          have now := setEntry_lookup idx k k {e with disk := none}
          rwa [if_pos rfl] at now
        have given : ∀ after : FiniteMap Key Entry,
            (∀ e', after.lookup k = some e' → e'.disk = none) →
            Released idx.entries after [(k,d.generation)] := by
          intro after free p inside
          cases List.mem_singleton.mp inside
          exact ⟨⟨e,d,present,held,rfl⟩,free⟩
        split_ifs with rootless
        · apply given
          intro e' there
          have gone := remove_lookup {(idx.setEntry k {e with disk := none}).freeDisk d.size with
            dirty := true} k k false
          rw [if_pos rfl,there] at gone
          cases gone
        · apply given
          intro e' there
          have there' : ((idx.setEntry k {e with disk := none}).freeDisk d.size).entries.lookup k =
              some e' := there
          rw [here] at there'
          cases there'
          rfl
      · simp only [takeDisk,held,if_neg same]
        split_ifs <;> exact Released.nil _ _

theorem evictDiskLoop_released (target fuel : Nat) (idx : Index) (deletes : List Path) :
    ∃ files, (evictDiskLoop target fuel idx deletes).2 = deletes ++ files ∧
      Released idx.entries (evictDiskLoop target fuel idx deletes).1.entries files := by
  induction fuel generalizing idx deletes with
  | zero => exact ⟨[],(List.append_nil deletes).symm,Released.nil _ _⟩
  | succ fuel ih =>
    unfold evictDiskLoop
    split_ifs
    · exact ⟨[],(List.append_nil deletes).symm,Released.nil _ _⟩
    · cases popFirst idx.diskLru with
      | none => exact ⟨[],(List.append_nil deletes).symm,Released.nil _ _⟩
      | some popped =>
        obtain ⟨⟨s,k⟩,rest⟩ := popped
        have pass := evictDiskPass_released {idx with diskLru := rest} s k
        have smaller := evictDiskPass_within {idx with diskLru := rest} s k
        obtain ⟨files,grown,later⟩ := ih (evictDiskPass {idx with diskLru := rest} s k).1
          (deletes ++ (evictDiskPass {idx with diskLru := rest} s k).2)
        refine ⟨(evictDiskPass {idx with diskLru := rest} s k).2 ++ files,?_,?_⟩
        · rw [← List.append_assoc]
          exact grown
        · exact pass.append later smaller (evictDiskLoop_within target fuel _ _)

theorem evictDisk_released (idx : Index) (limits : Limits) (deletes : List Path) :
    ∃ files, (idx.evictDisk limits deletes).2 = deletes ++ files ∧
      Released idx.entries (idx.evictDisk limits deletes).1.entries files := by
  unfold evictDisk
  split_ifs
  · exact ⟨[],(List.append_nil deletes).symm,Released.nil _ _⟩
  · exact evictDiskLoop_released _ _ idx deletes

theorem promote_deletes (idx : Index) (limits : Limits) (disk : Bool) (k : Key)
    (generation : Generation) (value : StoredResponse) :
    (idx.promote limits disk k generation value).2 = [] := by
  unfold promote
  split_ifs
  · rfl
  · simp only
    split_ifs
    · exact evictMemory_deletes _ limits disk []
    · rfl

theorem store_deletes (idx : Index) (limits : Limits) (disk : Bool) (primary : Key)
    (names : List String) (k : Key) (value : StoredResponse) :
    (idx.store limits disk primary names k value).2.1 = (idx.place limits disk primary names k value).2.1 :=
  evictMemory_deletes _ limits disk _

theorem onWriteDone_deletes (idx : Index) (limits : Limits) (k : Key) (g : Generation) (result : Option Nat) :
    (idx.onWriteDone limits k g result).2 =
      if idx.current k g = true then
        result.elim [] fun size =>
          ((idx.commitWrite k g size).1.evictDisk limits (idx.commitWrite k g size).2).2
      else result.elim [] fun _ => [(k,g)] := by
  unfold onWriteDone
  cases idx.current k g <;> cases result <;> rfl

theorem commitWrite_deletes {idx : Index} {k : Key} {e : Entry}
    (present : idx.entries.lookup k = some e) (g : Generation) (size : Nat) :
    (idx.commitWrite k g size).2 = (e.disk.map fun d => (k,d.generation)).toList := by
  simp [commitWrite,seq,present]

end Index

end Sharko.Netstack.Cache
