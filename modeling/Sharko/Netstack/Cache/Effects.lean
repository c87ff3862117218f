import Sharko.Netstack.Cache.Representation

/-! What the critical sections do to the entries of an index, whatever state it is
in: most of them only take copies away; a store, a promotion and a finished write
change one entry. -/

namespace Sharko.Netstack.Cache
open Library FiniteMap

structure Entry.Within (e' e : Entry) : Prop where
  mem : ∀ m', e'.mem = some m' → ∃ m, e.mem = some m ∧ m.value = m'.value
  disk : ∀ d', e'.disk = some d' → ∃ d, e.disk = some d ∧ d.generation = d'.generation
  pendingWrite : e'.pendingWrite = e.pendingWrite
  pendingValue : e'.pendingValue = e.pendingValue

theorem Entry.Within.refl (e : Entry) : e.Within e :=
  ⟨fun m held => ⟨m,held,rfl⟩,fun d held => ⟨d,held,rfl⟩,rfl,rfl⟩

theorem Entry.Within.trans {e₁ e₂ e₃ : Entry} (first : e₁.Within e₂) (second : e₂.Within e₃) :
    e₁.Within e₃ where
  mem m₁ held := by
    obtain ⟨m₂,held₂,same₂⟩ := first.mem m₁ held
    obtain ⟨m₃,held₃,same₃⟩ := second.mem m₂ held₂
    exact ⟨m₃,held₃,same₃.trans same₂⟩
  disk d₁ held := by
    obtain ⟨d₂,held₂,same₂⟩ := first.disk d₁ held
    obtain ⟨d₃,held₃,same₃⟩ := second.disk d₂ held₂
    exact ⟨d₃,held₃,same₃.trans same₂⟩
  pendingWrite := first.pendingWrite.trans second.pendingWrite
  pendingValue := first.pendingValue.trans second.pendingValue

def Within (entries' entries : FiniteMap Key Entry) : Prop :=
  ∀ k e', entries'.lookup k = some e' → ∃ e, entries.lookup k = some e ∧ e'.Within e

section
variable {entries entries' entries₁ entries₂ entries₃ : FiniteMap Key Entry}

theorem Within.refl (entries : FiniteMap Key Entry) : Within entries entries :=
  fun _ e present => ⟨e,present,Entry.Within.refl e⟩

theorem Within.trans (first : Within entries₁ entries₂) (second : Within entries₂ entries₃) :
    Within entries₁ entries₃ := by
  intro k e₁ present₁
  obtain ⟨e₂,present₂,within₂⟩ := first k e₁ present₁
  obtain ⟨e₃,present₃,within₃⟩ := second k e₂ present₂
  exact ⟨e₃,present₃,within₂.trans within₃⟩

theorem Within.replace {k : Key} {e e' : Entry} (present : entries.lookup k = some e) (smaller : e'.Within e)
    (now : ∀ j, entries'.lookup j = if j = k then some e' else entries.lookup j) :
    Within entries' entries := by
  intro j e'' here
  rw [now] at here
  split_ifs at here with same
  · cases here
    exact ⟨e,same ▸ present,smaller⟩
  · exact ⟨e'',here,Entry.Within.refl e''⟩

theorem Within.erase {k : Key} (now : ∀ j, entries'.lookup j = if j = k then none else entries.lookup j) :
    Within entries' entries := by
  intro j e' here
  rw [now] at here
  split_ifs at here
  exact ⟨e',here,Entry.Within.refl e'⟩

end

namespace Index

theorem remove_within (idx : Index) (k : Key) (disk : Bool) :
    Within (idx.remove k disk).1.entries idx.entries :=
  Within.erase fun j => remove_lookup idx k j disk

theorem touch_within {idx : Index} {k : Key} {e : Entry} (present : idx.entries.lookup k = some e) :
    Within (idx.touch k).entries idx.entries := by
  refine Within.replace present ?_ (touch_lookup present)
  refine ⟨?_,?_,rfl,rfl⟩
  · intro m' held
    obtain ⟨m,was,rfl⟩ := Option.map_eq_some_iff.mp held
    exact ⟨m,was,rfl⟩
  · intro d' held
    obtain ⟨d,was,rfl⟩ := Option.map_eq_some_iff.mp held
    exact ⟨d,was,rfl⟩

theorem lookup_within (digest128 : List UInt8 → Key) (idx : Index) (primary : Key) (target : String)
    (request : HeaderMap) : Within (idx.lookup digest128 primary target request).2.entries idx.entries := by
  rcases lookup_index digest128 idx primary target request with same | ⟨k,e,present,touched⟩
  · rw [same]
    exact Within.refl idx.entries
  · rw [touched]
    exact touch_within present

theorem lookup_decision {digest128 : List UInt8 → Key} {idx : Index} {primary : Key}
    {request : HeaderMap} {k : Key} {vary : VaryValues}
    (found : idx.variantOf digest128 primary request = some (k,vary)) (target : String) :
    (idx.lookup digest128 primary target request).1 = .miss ∨
      (∃ e value, idx.entries.lookup k = some e ∧ e.resident = some value ∧ value.url = target ∧
        value.vary = vary ∧ (idx.lookup digest128 primary target request).1 = .hit value) ∨
      ∃ e d, idx.entries.lookup k = some e ∧ e.resident = none ∧ e.disk = some d ∧
        (idx.lookup digest128 primary target request).1 = .read k vary d.generation := by
  unfold lookup
  simp only [found]
  cases present : idx.entries.lookup k with
  | none => exact .inl rfl
  | some e =>
    cases resident : e.resident with
    | some value =>
      by_cases matching : value.url = target ∧ value.vary = vary
      · exact .inr (.inl ⟨e,value,rfl,resident,matching.1,matching.2,by simp [resident,matching]⟩)
      · exact .inl (by simp [resident,matching])
    | none =>
      cases held : e.disk with
      | none => exact .inl (by simp [resident,held])
      | some d => exact .inr (.inr ⟨e,d,rfl,resident,held,by simp [resident,held]⟩)

theorem dropUnreadable_within (idx : Index) (k : Key) (generation : Generation) :
    Within (idx.dropUnreadable k generation).1.entries idx.entries := by
  unfold dropUnreadable
  simp only
  split_ifs
  · exact remove_within idx k true
  · exact Within.refl idx.entries

theorem removeAll_within (idx : Index) (disk : Bool) (keys : List Key) :
    Within (idx.removeAll disk keys).1.entries idx.entries := by
  induction keys generalizing idx with
  | nil => exact Within.refl idx.entries
  | cons k rest ih => exact (ih (idx.remove k disk).1).trans (remove_within idx k disk)

theorem invalidate_within (digest128 : List UInt8 → Key) (idx : Index) (url : Url) (disk : Bool) :
    Within (Index.invalidate digest128 idx url disk).1.entries idx.entries :=
  (removeAll_within _ disk _).trans (removeAll_within idx disk _)

theorem withoutMem_within (e : Entry) : Entry.Within {e with mem := none} e where
  mem m held := by cases held
  disk d held := ⟨d,held,rfl⟩
  pendingWrite := rfl
  pendingValue := rfl

theorem withoutDisk_within (e : Entry) : Entry.Within {e with disk := none} e where
  mem m held := ⟨m,held,rfl⟩
  disk d held := by cases held
  pendingWrite := rfl
  pendingValue := rfl

theorem evictMemoryPass_within (idx : Index) (disk : Bool) (s : Nat) (k : Key) :
    Within (evictMemoryPass idx disk s k).1.entries idx.entries := by
  unfold evictMemoryPass
  cases present : idx.entries.lookup k with
  | none => exact Within.refl idx.entries
  | some e =>
    cases held : e.mem with
    | none =>
      simp only [held]
      exact Within.refl idx.entries
    | some m =>
      have dropped : Within ((idx.setEntry k {e with mem := none}).freeMem m.weight).entries idx.entries :=
        Within.replace present (withoutMem_within e) fun j => setEntry_lookup idx k j _
      simp only [held]
      split_ifs
      · exact dropped
      · exact (remove_within _ k disk).trans dropped
      · exact Within.refl idx.entries

theorem evictMemoryLoop_within (limits : Limits) (disk : Bool) (fuel : Nat) (idx : Index)
    (deletes : List Path) : Within (evictMemoryLoop limits disk fuel idx deletes).1.entries idx.entries := by
  induction fuel generalizing idx deletes with
  | zero => exact Within.refl idx.entries
  | succ fuel ih =>
    unfold evictMemoryLoop
    split_ifs
    · exact Within.refl idx.entries
    · cases popFirst idx.memLru with
      | none => exact Within.refl idx.entries
      | some popped =>
        obtain ⟨⟨s,k⟩,rest⟩ := popped
        exact (ih _ _).trans (evictMemoryPass_within {idx with memLru := rest} disk s k)

theorem evictMemory_within (idx : Index) (limits : Limits) (disk : Bool) (deletes : List Path) :
    Within (idx.evictMemory limits disk deletes).1.entries idx.entries :=
  evictMemoryLoop_within limits disk _ idx deletes

theorem evictDiskPass_within (idx : Index) (s : Nat) (k : Key) :
    Within (evictDiskPass idx s k).1.entries idx.entries := by
  unfold evictDiskPass
  cases present : idx.entries.lookup k with
  | none => exact Within.refl idx.entries
  | some e =>
    have taken : Within (idx.takeDisk s k e).1.entries idx.entries := by
      unfold takeDisk
      cases held : e.disk with
      | none => exact Within.refl idx.entries
      | some d =>
        simp only
        split_ifs
        · exact Within.replace present (withoutDisk_within e) fun j => setEntry_lookup idx k j _
        · exact Within.refl idx.entries
    simp only
    split_ifs
    · exact (remove_within _ k false).trans taken
    · exact taken

theorem evictDiskLoop_within (target fuel : Nat) (idx : Index) (deletes : List Path) :
    Within (evictDiskLoop target fuel idx deletes).1.entries idx.entries := by
  induction fuel generalizing idx deletes with
  | zero => exact Within.refl idx.entries
  | succ fuel ih =>
    unfold evictDiskLoop
    split_ifs
    · exact Within.refl idx.entries
    · cases popFirst idx.diskLru with
      | none => exact Within.refl idx.entries
      | some popped =>
        obtain ⟨⟨s,k⟩,rest⟩ := popped
        exact (ih _ _).trans (evictDiskPass_within {idx with diskLru := rest} s k)

theorem evictDisk_within (idx : Index) (limits : Limits) (deletes : List Path) :
    Within (idx.evictDisk limits deletes).1.entries idx.entries := by
  unfold evictDisk
  split_ifs
  · exact Within.refl idx.entries
  · exact evictDiskLoop_within _ _ idx deletes

theorem load_idle {file : Option IndexSnapshot} {k : Key} {e : Entry}
    (present : (load file).entries.lookup k = some e) :
    e.mem = none ∧ e.pendingWrite = none ∧ e.pendingValue = none := by
  have blank : ∀ (records : List IndexRecord) (idx : Index),
      (∀ e, idx.entries.lookup k = some e → e.mem = none ∧ e.pendingWrite = none ∧ e.pendingValue = none) →
      ∀ e, (records.foldl loadRecord idx).entries.lookup k = some e →
        e.mem = none ∧ e.pendingWrite = none ∧ e.pendingValue = none := by
    intro records
    induction records with
    | nil => exact fun idx before => before
    | cons rec rest ih =>
      intro idx before
      apply ih
      intro e here
      have loaded : (idx.loadRecord rec).entries.lookup k = if k = rec.vkey then
          some ⟨rec.primary,none,some ⟨rec.generation,rec.size,idx.nextSeq + 1⟩,none,none⟩
          else idx.entries.lookup k := setEntry_lookup idx rec.vkey k _
      rw [loaded] at here
      split_ifs at here
      · cases here
        exact ⟨rfl,rfl,rfl⟩
      · exact before e here
  have named : ∀ (pairs : List (Key × List String)) (idx : Index),
      (pairs.foldl loadVary idx).entries = idx.entries := by
    intro pairs
    induction pairs with
    | nil => exact fun idx => rfl
    | cons pair rest ih =>
      intro idx
      rw [List.foldl_cons,ih]
      unfold loadVary
      cases idx.primaries.lookup pair.1 <;> rfl
  cases file with
  | none => simp [load,new] at present
  | some s =>
    have same : (load (some s)).entries = (s.entries.foldl loadRecord new).entries := named s.vary _
    rw [same] at present
    exact blank s.entries new (by simp [new]) e present

def placed (idx : Index) (limits : Limits) (disk : Bool) (primary k : Key) (value : StoredResponse) :
    Entry :=
  Entry.stored {idx.oldEntry primary k with mem := none} (value.weight ≤ limits.memEntryMax)
    (disk && decide (value.body.length ≤ limits.diskEntryMax)) value (idx.nextSeq + 1) idx.generation.1

theorem placed_mem {idx : Index} {limits : Limits} {disk : Bool} {primary k : Key}
    {value : StoredResponse} {m : MemSlot}
    (held : (idx.placed limits disk primary k value).mem = some m) : m.value = value := by
  unfold placed Entry.stored at held
  split_ifs at held <;> cases held <;> rfl

theorem placed_waiting (idx : Index) (limits : Limits) (disk : Bool) (primary k : Key)
    (value : StoredResponse) :
    let onDisk := disk && decide (value.body.length ≤ limits.diskEntryMax)
    let entry := idx.placed limits disk primary k value
    entry.pendingWrite = (if onDisk then some idx.generation.1 else none) ∧
      entry.pendingValue = (if onDisk then some value else none) ∧
      entry.disk = if onDisk then (idx.oldEntry primary k).disk else none := by
  intro onDisk entry
  simp only [entry,placed,Entry.stored]
  split_ifs <;> simp_all

theorem place_lookup (idx : Index) (limits : Limits) (disk : Bool) (primary : Key)
    (names : List String) (k : Key) (value : StoredResponse) (j : Key) :
    (idx.place limits disk primary names k value).1.entries.lookup j =
      if j = k then
        if (idx.placed limits disk primary k value).rootless then none
        else some (idx.placed limits disk primary k value)
      else idx.entries.lookup j := by
  have entry : (idx.fileEntry (value.weight ≤ limits.memEntryMax)
      (disk && decide (value.body.length ≤ limits.diskEntryMax)) primary names k value).2.1 =
      idx.placed limits disk primary k value := by
    rw [fileEntry_eq]
    rfl
  unfold place
  simp only [entry]
  split_ifs with rootless same same
  · rw [remove_lookup,if_pos same]
  · rw [remove_lookup,if_neg same,fileEntry_lookup,if_neg same]
  · rw [fileEntry_lookup,if_pos same,entry]
  · rw [fileEntry_lookup,if_neg same]

theorem store_write (idx : Index) (limits : Limits) (disk : Bool) (primary : Key)
    (names : List String) (k : Key) (value : StoredResponse) :
    (idx.store limits disk primary names k value).2.2 =
      if disk && decide (value.body.length ≤ limits.diskEntryMax) then some idx.generation.1 else none := by
  unfold store place
  simp only [fileEntry_eq]

theorem store_within (idx : Index) (limits : Limits) (disk : Bool) (primary : Key)
    (names : List String) (k : Key) (value : StoredResponse) :
    Within (idx.store limits disk primary names k value).1.entries
      (idx.place limits disk primary names k value).1.entries :=
  evictMemory_within _ limits disk _

/-- After a store, an entry of its key is within the placed one; the others are
within what they were. -/
theorem store_entry {idx : Index} {limits : Limits} {disk : Bool} {primary : Key}
    {names : List String} {k : Key} {value : StoredResponse} {j : Key} {e' : Entry}
    (here : (idx.store limits disk primary names k value).1.entries.lookup j = some e') :
    if j = k then e'.Within (idx.placed limits disk primary k value)
    else ∃ e, idx.entries.lookup j = some e ∧ e'.Within e := by
  obtain ⟨e,before,smaller⟩ := store_within idx limits disk primary names k value j e' here
  rw [place_lookup] at before
  split_ifs at before ⊢ with same rootless
  · cases before
    exact smaller
  · exact ⟨e,before,smaller⟩

/-- A promotion takes copies away, except for the copy it adds to an entry
without one whose slot has the generation that was read. -/
theorem promote_entry {idx : Index} {limits : Limits} {disk : Bool} {k : Key}
    {generation : Generation} {value : StoredResponse} {j : Key} {e' : Entry}
    (here : (idx.promote limits disk k generation value).1.entries.lookup j = some e') :
    (∃ e, idx.entries.lookup j = some e ∧ e'.Within e) ∨
      j = k ∧ value.weight ≤ limits.memEntryMax ∧ ∃ e d s, idx.entries.lookup k = some e ∧
        e.mem = none ∧ e.disk = some d ∧ d.generation = generation ∧
        e'.Within {e with mem := some ⟨value,value.weight,s⟩} := by
  unfold promote at here
  split_ifs at here with heavy
  · exact .inl ⟨e',here,Entry.Within.refl e'⟩
  · rcases addMemCopy_cases idx k generation value with early | ⟨e,d,present,mem,disk',same,added⟩
    · rw [early] at here
      exact .inl ⟨e',here,Entry.Within.refl e'⟩
    · rw [added] at here
      obtain ⟨e₁,before,smaller⟩ := evictMemory_within _ limits disk [] j e' here
      have before' : (idx.setEntry k {e with mem := some ⟨value,value.weight,idx.nextSeq + 1⟩}).entries.lookup
          j = some e₁ := before
      rw [setEntry_lookup] at before'
      split_ifs at before' with own
      · cases before'
        exact .inr ⟨own,Nat.le_of_not_lt heavy,e,d,_,present,mem,disk',same,smaller⟩
      · exact .inl ⟨e₁,before',smaller⟩

theorem current_iff (idx : Index) (k : Key) (generation : Generation) : idx.current k generation = true ↔
      ∃ e, idx.entries.lookup k = some e ∧ e.pendingWrite = some generation := by
  unfold current
  cases idx.entries.lookup k <;> simp

theorem commitWrite_lookup {idx : Index} {k : Key} {e : Entry} (present : idx.entries.lookup k = some e)
    (generation : Generation) (size : Nat) (j : Key) : (idx.commitWrite k generation size).1.entries.lookup j =
      if j = k then some {e with disk := some ⟨generation,size,idx.nextSeq + 1⟩, pendingWrite := none,
                                 pendingValue := none}
      else idx.entries.lookup j := by
  rw [← setEntry_lookup]
  cases slot : e.disk <;> simp [commitWrite,seq,present,slot,setEntry,freeDisk]

theorem abandonWrite_lookup {idx : Index} {k : Key} {e : Entry}
    (present : idx.entries.lookup k = some e) (j : Key) : (idx.abandonWrite k).entries.lookup j =
      if j = k then
        if e.mem.isNone && e.disk.isNone then none
        else some {e with pendingWrite := none, pendingValue := none}
      else idx.entries.lookup j := by
  simp only [abandonWrite,present]
  split_ifs with rootless same same
  · rw [remove_lookup,if_pos same]
  · rw [remove_lookup,if_neg same,setEntry_lookup,if_neg same]
  · rw [setEntry_lookup,if_pos same]
  · rw [setEntry_lookup,if_neg same]

/-- A finished write that is current turns its pending value into a slot; one
that failed leaves the entry without it. -/
theorem onWriteDone_entry {idx : Index} {limits : Limits} {k : Key} {generation : Generation}
    {result : Option Nat} {j : Key} {e' : Entry}
    (here : (idx.onWriteDone limits k generation result).1.entries.lookup j = some e') :
    ∃ e, idx.entries.lookup j = some e ∧
      if j = k ∧ e.pendingWrite = some generation then
        ∃ s, e'.Within {e with disk := result.elim e.disk fun size => some ⟨generation,size,s⟩,
                               pendingWrite := none, pendingValue := none}
      else e'.Within e := by
  unfold onWriteDone at here
  cases now : idx.current k generation with
  | false =>
    have unchanged : idx.entries.lookup j = some e' := by
      rw [now] at here
      cases result <;> exact here
    refine ⟨e',unchanged,?_⟩
    rw [if_neg]
    · exact Entry.Within.refl e'
    · rintro ⟨rfl,pending⟩
      rw [(current_iff idx j generation).mpr ⟨e',unchanged,pending⟩] at now
      cases now
  | true =>
    obtain ⟨e,present,pending⟩ := (current_iff idx k generation).mp now
    rw [now] at here
    cases result with
    | some size =>
      have evicted := evictDisk_within (idx.commitWrite k generation size).1 limits
        (idx.commitWrite k generation size).2
      obtain ⟨e₁,before,smaller⟩ := evicted j e' here
      rw [commitWrite_lookup present] at before
      split_ifs at before with own
      · cases before
        refine ⟨e,own ▸ present,?_⟩
        rw [if_pos ⟨own,pending⟩]
        exact ⟨_,smaller⟩
      · exact ⟨e₁,before,by rw [if_neg fun both => own both.1]; exact smaller⟩
    | none =>
      have before : (idx.abandonWrite k).entries.lookup j = some e' := here
      rw [abandonWrite_lookup present] at before
      split_ifs at before with own rootless
      · cases before
        refine ⟨e,own ▸ present,?_⟩
        rw [if_pos ⟨own,pending⟩]
        exact ⟨0,Entry.Within.refl _⟩
      · exact ⟨e',before,by rw [if_neg fun both => own both.1]; exact Entry.Within.refl e'⟩

end Index

end Sharko.Netstack.Cache
