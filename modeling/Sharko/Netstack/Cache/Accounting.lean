import Sharko.Netstack.Cache.Generations

/-! The slots of the index across its critical sections: a file that loses its slot
is given up by the section that takes it. -/

namespace Sharko.Netstack.Cache
open Library FiniteMap

def Named (entries : FiniteMap Key Entry) (p : Path) : Prop :=
  ∃ e d, entries.lookup p.1 = some e ∧ e.disk = some d ∧ d.generation = p.2

def Accounted (before after : FiniteMap Key Entry) (deletes : List Path) : Prop :=
  ∀ p, Named before p → Named after p ∨ p ∈ deletes

section
variable {entries entries' entries₁ entries₂ entries₃ : FiniteMap Key Entry}
  {deletes first second : List Path}

theorem Within.named (smaller : Within entries' entries) {p : Path} (named : Named entries' p) :
    Named entries p := by
  obtain ⟨e',d',here,held,generation⟩ := named
  obtain ⟨e,before,within⟩ := smaller p.1 e' here
  obtain ⟨d,slot,same⟩ := within.disk d' held
  exact ⟨e,d,before,slot,same.trans generation⟩

theorem Accounted.refl (entries : FiniteMap Key Entry) : Accounted entries entries [] :=
  fun _ named => .inl named

theorem Accounted.append (early : Accounted entries₁ entries₂ first)
    (late : Accounted entries₂ entries₃ second) : Accounted entries₁ entries₃ (first ++ second) := by
  intro p named
  rcases early p named with kept | given
  · rcases late p kept with kept' | given
    · exact .inl kept'
    · exact .inr (List.mem_append_right _ given)
  · exact .inr (List.mem_append_left _ given)

theorem Accounted.changed {k : Key} (others : ∀ j, j ≠ k → entries'.lookup j = entries.lookup j)
    (own : ∀ g, Named entries (k,g) → Named entries' (k,g) ∨ (k,g) ∈ deletes) :
    Accounted entries entries' deletes := by
  rintro ⟨j,g⟩ named
  by_cases same : j = k
  · subst same
    exact own g named
  · left
    obtain ⟨e,d,here,held,generation⟩ := named
    exact ⟨e,d,(others j same).trans here,held,generation⟩

theorem Accounted.replace {k : Key} {e' : Entry}
    (now : ∀ j, entries'.lookup j = if j = k then some e' else entries.lookup j)
    (slot : ∀ e d, entries.lookup k = some e → e.disk = some d →
      (∃ d', e'.disk = some d' ∧ d'.generation = d.generation) ∨ (k,d.generation) ∈ deletes) :
    Accounted entries entries' deletes := by
  refine Accounted.changed (k := k) (fun j other => (now j).trans (if_neg other)) ?_
  rintro g ⟨e,d,here,held,rfl⟩
  rcases slot e d here held with ⟨d',held',same⟩ | given
  · exact .inl ⟨e',d',(now k).trans (if_pos rfl),held',same⟩
  · exact .inr given

end

namespace Index

theorem remove_accounted (idx : Index) (k : Key) :
    Accounted idx.entries (idx.remove k true).1.entries (idx.remove k true).2.toList := by
  refine Accounted.changed (k := k) (fun j other => (remove_lookup idx k j true).trans (if_neg other)) ?_
  rintro g ⟨e,d,here,held,rfl⟩
  right
  simp [remove_file here,held]

theorem remove_slotless {idx : Index} {k : Key} {e : Entry} (here : idx.entries.lookup k = some e)
    (slotless : e.disk = none) (disk : Bool) : Accounted idx.entries (idx.remove k disk).1.entries [] := by
  refine Accounted.changed (k := k) (fun j other => (remove_lookup idx k j disk).trans (if_neg other)) ?_
  rintro g ⟨e₀,d,here₀,held,_⟩
  cases here.symm.trans here₀
  rw [slotless] at held
  cases held

theorem removeAll_accounted (idx : Index) (keys : List Key) :
    Accounted idx.entries (idx.removeAll true keys).1.entries (idx.removeAll true keys).2 := by
  induction keys generalizing idx with
  | nil => exact Accounted.refl _
  | cons k rest ih => exact (remove_accounted idx k).append (ih (idx.remove k true).1)

theorem invalidate_accounted (digest128 : List UInt8 → Key) (idx : Index) (url : Url) :
    Accounted idx.entries (Index.invalidate digest128 idx url true).1.entries
      (Index.invalidate digest128 idx url true).2 :=
  (removeAll_accounted idx _).append (removeAll_accounted _ _)

theorem dropUnreadable_accounted (idx : Index) (k : Key) (generation : Generation) :
    Accounted idx.entries (idx.dropUnreadable k generation).1.entries (idx.dropUnreadable k generation).2 := by
  unfold dropUnreadable
  simp only
  split_ifs
  · exact remove_accounted idx k
  · exact Accounted.refl _

theorem lookup_accounted (digest128 : List UInt8 → Key) (idx : Index) (primary : Key) (target : String)
    (request : HeaderMap) :
    Accounted idx.entries (idx.lookup digest128 primary target request).2.entries [] := by
  rcases lookup_index digest128 idx primary target request with same | ⟨k,e,present,touched⟩
  · rw [same]
    exact Accounted.refl _
  · rw [touched]
    refine Accounted.replace (touch_lookup present) ?_
    intro e₀ d here held
    cases present.symm.trans here
    exact .inl ⟨{d with seq := idx.nextSeq + 1},by simp [Entry.touched,held],rfl⟩

theorem evictMemoryPass_accounted (idx : Index) (disk : Bool) (s : Nat) (k : Key) :
    Accounted idx.entries (evictMemoryPass idx disk s k).1.entries [] := by
  unfold evictMemoryPass
  cases present : idx.entries.lookup k with
  | none => exact Accounted.refl _
  | some e =>
    cases held : e.mem with
    | none =>
      simp only [held]
      exact Accounted.refl _
    | some m =>
      have now := fun j => setEntry_lookup idx k j {e with mem := none}
      have dropped : Accounted idx.entries
          ((idx.setEntry k {e with mem := none}).freeMem m.weight).entries [] := by
        refine Accounted.replace now ?_
        intro e₀ d here slot
        cases present.symm.trans here
        exact .inl ⟨d,slot,rfl⟩
      simp only [held]
      split_ifs with same kept
      · exact dropped
      · have slotless : e.disk = none := by
          cases slot : e.disk with
          | none => rfl
          | some d => simp [slot] at kept
        have gone := @remove_slotless ((idx.setEntry k {e with mem := none}).freeMem m.weight) k _
          ((now k).trans (if_pos rfl)) slotless disk
        exact dropped.append gone
      · exact Accounted.refl _

theorem evictMemoryLoop_accounted (limits : Limits) (disk : Bool) (fuel : Nat) (idx : Index)
    (deletes : List Path) :
    Accounted idx.entries (evictMemoryLoop limits disk fuel idx deletes).1.entries [] := by
  induction fuel generalizing idx deletes with
  | zero => exact Accounted.refl _
  | succ fuel ih =>
    unfold evictMemoryLoop
    split_ifs
    · exact Accounted.refl _
    · cases popFirst idx.memLru with
      | none => exact Accounted.refl _
      | some popped =>
        obtain ⟨⟨s,k⟩,rest⟩ := popped
        exact (evictMemoryPass_accounted {idx with memLru := rest} disk s k).append (ih _ _)

theorem evictMemory_accounted (idx : Index) (limits : Limits) (disk : Bool) (deletes : List Path) :
    Accounted idx.entries (idx.evictMemory limits disk deletes).1.entries [] :=
  evictMemoryLoop_accounted limits disk _ idx deletes

theorem evictDiskPass_accounted (idx : Index) (s : Nat) (k : Key) :
    Accounted idx.entries (evictDiskPass idx s k).1.entries (evictDiskPass idx s k).2 := by
  unfold evictDiskPass
  cases present : idx.entries.lookup k with
  | none => exact Accounted.refl _
  | some e =>
    have taken : Accounted idx.entries (idx.takeDisk s k e).1.entries (idx.takeDisk s k e).2.2 ∧
        (idx.takeDisk s k e).1.entries.lookup k = some (idx.takeDisk s k e).2.1 := by
      unfold takeDisk
      cases held : e.disk with
      | none => exact ⟨Accounted.refl _,present⟩
      | some d =>
        simp only
        split_ifs
        · have now := fun j => setEntry_lookup idx k j {e with disk := none}
          refine ⟨Accounted.replace now ?_,(now k).trans (if_pos rfl)⟩
          intro e₀ d₀ here slot
          cases present.symm.trans here
          cases held.symm.trans slot
          exact .inr List.mem_cons_self
        · exact ⟨Accounted.refl _,present⟩
    obtain ⟨given,there⟩ := taken
    simp only
    split_ifs with rootless
    · have slotless : (idx.takeDisk s k e).2.1.disk = none := by
        simp only [Entry.rootless,Bool.and_eq_true,Option.isNone_iff_eq_none] at rootless
        exact rootless.1.2
      have gone := @remove_slotless {(idx.takeDisk s k e).1 with dirty := true} k _ there slotless false
      have both := given.append gone
      rwa [List.append_nil] at both
    · exact given

theorem evictDiskLoop_accounted (target fuel : Nat) (idx : Index) (deletes : List Path) :
    ∃ files, (evictDiskLoop target fuel idx deletes).2 = deletes ++ files ∧
      Accounted idx.entries (evictDiskLoop target fuel idx deletes).1.entries files := by
  induction fuel generalizing idx deletes with
  | zero => exact ⟨[],(List.append_nil deletes).symm,Accounted.refl _⟩
  | succ fuel ih =>
    unfold evictDiskLoop
    split_ifs
    · exact ⟨[],(List.append_nil deletes).symm,Accounted.refl _⟩
    · cases popFirst idx.diskLru with
      | none => exact ⟨[],(List.append_nil deletes).symm,Accounted.refl _⟩
      | some popped =>
        obtain ⟨⟨s,k⟩,rest⟩ := popped
        have pass := evictDiskPass_accounted {idx with diskLru := rest} s k
        obtain ⟨files,grown,later⟩ := ih (evictDiskPass {idx with diskLru := rest} s k).1
          (deletes ++ (evictDiskPass {idx with diskLru := rest} s k).2)
        refine ⟨(evictDiskPass {idx with diskLru := rest} s k).2 ++ files,?_,pass.append later⟩
        rw [← List.append_assoc]
        exact grown

theorem evictDisk_accounted (idx : Index) (limits : Limits) (deletes : List Path) :
    ∃ files, (idx.evictDisk limits deletes).2 = deletes ++ files ∧
      Accounted idx.entries (idx.evictDisk limits deletes).1.entries files := by
  unfold evictDisk
  split_ifs
  · exact ⟨[],(List.append_nil deletes).symm,Accounted.refl _⟩
  · exact evictDiskLoop_accounted _ _ idx deletes

theorem promote_accounted (idx : Index) (limits : Limits) (disk : Bool) (k : Key)
    (generation : Generation) (value : StoredResponse) :
    Accounted idx.entries (idx.promote limits disk k generation value).1.entries [] := by
  unfold promote
  split_ifs
  · exact Accounted.refl _
  · rcases addMemCopy_cases idx k generation value with early | ⟨e,d,present,_,_,_,added⟩
    · rw [early]
      exact Accounted.refl _
    · have now := fun j => setEntry_lookup idx k j
        {e with mem := some ⟨value,value.weight,idx.nextSeq + 1⟩}
      have copied := @Accounted.replace idx.entries _ [] k _ now (by
        intro e₀ d₀ here slot
        cases present.symm.trans here
        exact .inl ⟨d₀,slot,rfl⟩)
      rw [added]
      intro p named
      have kept := (copied p named).resolve_right List.not_mem_nil
      exact evictMemory_accounted _ limits disk [] p kept

theorem place_deletes (idx : Index) (limits : Limits) (primary : Key) (names : List String) (k : Key)
    (value : StoredResponse) : (idx.place limits true primary names k value).2.1 =
      if value.body.length ≤ limits.diskEntryMax then []
      else ((idx.oldEntry primary k).disk.map fun d => (k,d.generation)).toList := by
  unfold place
  simp only [fileEntry_eq]
  by_cases small : value.body.length ≤ limits.diskEntryMax <;> simp [small]

theorem place_accounted (idx : Index) (limits : Limits) (primary : Key) (names : List String) (k : Key)
    (value : StoredResponse) : Accounted idx.entries (idx.place limits true primary names k value).1.entries
      (idx.place limits true primary names k value).2.1 := by
  have now := place_lookup idx limits true primary names k value
  refine Accounted.changed (k := k) (fun j other => (now j).trans (if_neg other)) ?_
  rintro g ⟨e,d,here,held,rfl⟩
  have old : (idx.oldEntry primary k).disk = some d := by
    simp [oldEntry_disk,here,held]
  have slot := (placed_waiting idx limits true primary k value).2.2
  rw [place_deletes]
  by_cases small : value.body.length ≤ limits.diskEntryMax
  · -- The old file stays until the write of the new one is done.
    left
    rw [if_pos (by simp [small]),old] at slot
    have rooted : (idx.placed limits true primary k value).rootless = false := by
      simp [Entry.rootless,slot]
    refine ⟨_,d,?_,slot,rfl⟩
    rw [now,if_pos rfl,rooted]
    rfl
  · right
    simp [small,old]

theorem store_accounted (idx : Index) (limits : Limits) {disk : Bool} (tier : disk = true)
    (primary : Key) (names : List String) (k : Key) (value : StoredResponse) :
    Accounted idx.entries (idx.store limits disk primary names k value).1.entries
      (idx.store limits disk primary names k value).2.1 := by
  subst tier
  rw [store_deletes]
  have both := (place_accounted idx limits primary names k value).append
    (evictMemory_accounted (idx.place limits true primary names k value).1 limits true
      (idx.place limits true primary names k value).2.1)
  rwa [List.append_nil] at both

theorem store_named {idx : Index} {limits : Limits} {disk : Bool} {primary : Key} {names : List String}
    {k : Key} {value : StoredResponse} {p : Path}
    (named : Named (idx.store limits disk primary names k value).1.entries p) : Named idx.entries p := by
  obtain ⟨e',d',here,held,generation⟩ := named
  have change := store_entry here
  split_ifs at change with own
  · obtain ⟨d,slot,same⟩ := change.disk d' held
    rw [(placed_waiting idx limits disk primary k value).2.2,oldEntry_disk] at slot
    split_ifs at slot
    obtain ⟨e,before,was⟩ := Option.bind_eq_some_iff.mp slot
    exact ⟨e,d,own ▸ before,was,same.trans generation⟩
  · obtain ⟨e,before,smaller⟩ := change
    obtain ⟨d,slot,same⟩ := smaller.disk d' held
    exact ⟨e,d,before,slot,same.trans generation⟩

theorem onWriteDone_named {idx : Index} {limits : Limits} {k : Key} {generation : Generation}
    {result : Option Nat} {p : Path} (named : Named (idx.onWriteDone limits k generation result).1.entries p) :
    Named idx.entries p ∨ p = (k,generation) ∧ result.isSome := by
  obtain ⟨e',d',here,held,same'⟩ := named
  obtain ⟨e,before,change⟩ := onWriteDone_entry here
  split_ifs at change with own
  · obtain ⟨n,smaller⟩ := change
    obtain ⟨d,slot,same⟩ := smaller.disk d' held
    cases result with
    | none => exact .inl ⟨e,d,before,slot,same.trans same'⟩
    | some size =>
      cases slot
      exact .inr ⟨Prod.ext own.1 (same.trans same').symm,rfl⟩
  · obtain ⟨d,slot,same⟩ := change.disk d' held
    exact .inl ⟨e,d,before,slot,same.trans same'⟩

theorem commitWrite_accounted {idx : Index} {k : Key} {e : Entry}
    (present : idx.entries.lookup k = some e) (generation : Generation) (size : Nat) :
    Accounted idx.entries (idx.commitWrite k generation size).1.entries
      (idx.commitWrite k generation size).2 := by
  refine Accounted.replace (commitWrite_lookup present generation size) ?_
  intro e₀ d here held
  cases present.symm.trans here
  right
  simp [commitWrite_deletes present,held]

/-- Every file that loses its slot to a finished write is given up, and so is the
written file if it gets none. -/
theorem onWriteDone_accounted (idx : Index) (limits : Limits) (k : Key) (generation : Generation)
    (result : Option Nat) : Accounted idx.entries (idx.onWriteDone limits k generation result).1.entries
        (idx.onWriteDone limits k generation result).2 ∧
      (result.isSome → Named (idx.onWriteDone limits k generation result).1.entries (k,generation) ∨
        (k,generation) ∈ (idx.onWriteDone limits k generation result).2) := by
  unfold onWriteDone
  cases now : idx.current k generation with
  | false =>
    cases result with
    | none => exact ⟨Accounted.refl _,by simp⟩
    | some size => exact ⟨fun _ named => .inl named,fun _ => .inr List.mem_cons_self⟩
  | true =>
    obtain ⟨e,present,_⟩ := (current_iff idx k generation).mp now
    cases result with
    | some size =>
      obtain ⟨files,grown,evicted⟩ := evictDisk_accounted (idx.commitWrite k generation size).1 limits
        (idx.commitWrite k generation size).2
      have written : Named (idx.commitWrite k generation size).1.entries (k,generation) :=
        ⟨_,_,(commitWrite_lookup present generation size k).trans (if_pos rfl),rfl,rfl⟩
      refine ⟨?_,fun _ => ?_⟩
      · simp only [grown]
        exact (commitWrite_accounted present generation size).append evicted
      · simp only [grown]
        exact (evicted _ written).imp_right (List.mem_append_right _)
    | none =>
      refine ⟨?_,by simp⟩
      have after := abandonWrite_lookup present
      refine Accounted.changed (k := k) (fun j other => (after j).trans (if_neg other)) ?_
      rintro g ⟨e₀,d,here,held,rfl⟩
      cases present.symm.trans here
      refine .inl ⟨{e with pendingWrite := none, pendingValue := none},d,?_,held,rfl⟩
      have slot : (e.mem.isNone && e.disk.isNone) = false := by simp [held]
      rw [after,if_pos rfl,slot]
      rfl

end Index

end Sharko.Netstack.Cache
