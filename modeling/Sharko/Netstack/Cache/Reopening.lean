import Mathlib
import Sharko.Netstack.Cache.Sections

/-! A cache opened from the snapshot of an index: its disk tier is that of the index, in the same
order, up to the oldest entries that the budget has no room for. -/

namespace Sharko.Netstack.Cache
open Library FiniteMap

namespace Index

variable {owner : Key → Key} {idx : Index}

def records (idx : Index) : List IndexRecord := idx.lruKeys.filterMap idx.recordOf

theorem lruKeys_inOrder (idx : Index) : idx.lruKeys = inOrder idx.diskLru := rfl

theorem mem_lruKeys (ok : Consistent idx) {k : Key} :
    k ∈ idx.lruKeys ↔ ∃ e d,idx.entries.lookup k = some e ∧ e.disk = some d := by
  rw [lruKeys_inOrder,mem_inOrder]
  constructor
  · intro listed
    obtain ⟨s,here⟩ := listed
    obtain ⟨e,w,present,held⟩ := (ok.disk.ranked s k).mp here
    obtain ⟨d,slot,-⟩ := Option.map_eq_some_iff.mp held
    exact ⟨e,d,present,slot⟩
  · intro held
    obtain ⟨e,d,present,slot⟩ := held
    refine ⟨d.seq,(ok.disk.ranked d.seq k).mpr ⟨e,d.size,present,?_⟩⟩
    rw [diskSlot,slot]
    rfl

theorem recordOf_held {k : Key} {e : Entry} {d : DiskSlot} (present : idx.entries.lookup k = some e)
    (slot : e.disk = some d) : idx.recordOf k = some ⟨k,e.primary,d.generation,d.size⟩ := by
  rw [recordOf,present,Option.bind_some,slot]
  rfl

theorem mem_records (ok : Consistent idx) {rec : IndexRecord} :
    rec ∈ idx.records ↔ ∃ e d,idx.entries.lookup rec.vkey = some e ∧ e.disk = some d ∧
      rec = ⟨rec.vkey,e.primary,d.generation,d.size⟩ := by
  rw [records,List.mem_filterMap]
  constructor
  · intro listed
    obtain ⟨k,inside,found⟩ := listed
    obtain ⟨e,d,present,slot⟩ := (mem_lruKeys ok).mp inside
    rw [recordOf_held present slot] at found
    cases found
    exact ⟨e,d,present,slot,rfl⟩
  · intro held
    obtain ⟨e,d,present,slot,same⟩ := held
    refine ⟨rec.vkey,(mem_lruKeys ok).mpr ⟨e,d,present,slot⟩,?_⟩
    rw [recordOf_held present slot,← same]

theorem diskBytes_records (ok : Consistent idx) : idx.diskBytes = (idx.records.map IndexRecord.size).sum := by
  have sizes : ∀ keys : List Key,keys ⊆ idx.lruKeys →
      ((keys.filterMap idx.recordOf).map IndexRecord.size).sum =
        (keys.map fun k => (idx.entries.lookup k).elim 0 (slotWeight diskSlot)).sum := by
    intro keys inside
    induction keys with
    | nil => rfl
    | cons k rest ih =>
      obtain ⟨e,d,present,slot⟩ := (mem_lruKeys ok).mp (inside List.mem_cons_self)
      rw [List.filterMap_cons,recordOf_held present slot,List.map_cons,List.map_cons,List.sum_cons,
        List.sum_cons,ih fun j listed => inside (List.mem_cons_of_mem k listed),present]
      simp [slotWeight,diskSlot,slot]
  rw [records,sizes idx.lruKeys (List.Subset.refl _)]
  exact ok.disk.sum_inOrder

theorem recordOf_congr {idx' : Index} {keys : List Key}
    (same : ∀ k ∈ keys,idx'.entries.lookup k = idx.entries.lookup k) :
    keys.filterMap idx'.recordOf = keys.filterMap idx.recordOf := by
  apply List.filterMap_congr
  intro k listed
  rw [recordOf,recordOf,same k listed]

theorem loadRecord_records (ok : Represented owner idx) {rec : IndexRecord}
    (absent : idx.entries.lookup rec.vkey = none) : (idx.loadRecord rec).records = idx.records ++ [rec] := by
  have now : ∀ j,(idx.loadRecord rec).entries.lookup j = if j = rec.vkey then
      some ⟨rec.primary,none,some ⟨rec.generation,rec.size,idx.nextSeq + 1⟩,none,none⟩
      else idx.entries.lookup j :=
    fun j => setEntry_lookup idx rec.vkey j _
  have keys : (idx.loadRecord rec).lruKeys = idx.lruKeys ++ [rec.vkey] := by
    apply inOrder_insert_last
    intro s k here
    exact Nat.lt_succ_of_le (ok.disk.recent s k here)
  have others : ∀ k ∈ idx.lruKeys,(idx.loadRecord rec).entries.lookup k = idx.entries.lookup k := by
    intro k listed
    obtain ⟨e,d,present,-⟩ := (mem_lruKeys ok.toConsistent).mp listed
    have other : k ≠ rec.vkey := by
      intro same
      rw [same,absent] at present
      cases present
    rw [now,if_neg other]
  have own : (idx.loadRecord rec).recordOf rec.vkey = some rec := by
    rw [recordOf,now,if_pos rfl]
    rfl
  rw [records,keys,List.filterMap_append,recordOf_congr others,List.filterMap_cons,own]
  rfl

def Loaded (idx : Index) : Prop :=
  ∀ k e,idx.entries.lookup k = some e → e.mem = none ∧ e.pendingWrite = none

def Unvaried (idx : Index) : Prop := ∀ p info,idx.primaries.lookup p = some info → info.vary = []

theorem loadRecord_loaded (loaded : idx.Loaded) (rec : IndexRecord) : (idx.loadRecord rec).Loaded := by
  intro k e here
  have now := setEntry_lookup idx rec.vkey k
    ⟨rec.primary,none,some ⟨rec.generation,rec.size,idx.nextSeq + 1⟩,none,none⟩
  have there : (idx.loadRecord rec).entries.lookup k = _ := now
  rw [there] at here
  split_ifs at here
  · cases here
    exact ⟨rfl,rfl⟩
  · exact loaded k e here

theorem loadRecord_unvaried (unvaried : idx.Unvaried) (rec : IndexRecord) : (idx.loadRecord rec).Unvaried := by
  intro p info here
  have now : (idx.loadRecord rec).primaries.lookup p = _ := lookup_insert_if idx.primaries rec.primary p _
  rw [now] at here
  split_ifs at here
  · cases here
    change ((idx.primaries.lookup rec.primary).getD ⟨[],[]⟩).vary = []
    cases found : idx.primaries.lookup rec.primary with
    | none => rfl
    | some old => exact unvaried rec.primary old found
  · exact unvaried p info here

theorem loadRecords_records (ok : Represented owner idx) (loaded : idx.Loaded) (unvaried : idx.Unvaried)
    {recs : List IndexRecord} (nodup : (recs.map IndexRecord.vkey).Nodup)
    (absent : ∀ rec ∈ recs,idx.entries.lookup rec.vkey = none)
    (owned : ∀ rec ∈ recs,rec.primary = owner rec.vkey) :
    (recs.foldl loadRecord idx).records = idx.records ++ recs ∧ (recs.foldl loadRecord idx).Loaded ∧
      (recs.foldl loadRecord idx).Unvaried := by
  induction recs generalizing idx with
  | nil => exact ⟨(List.append_nil _).symm,loaded,unvaried⟩
  | cons rec rest ih =>
    obtain ⟨fresh,nodup'⟩ := List.nodup_cons.mp nodup
    have missing := absent rec List.mem_cons_self
    have ok' := loadRecord_represented ok missing (owned rec List.mem_cons_self)
    obtain ⟨same,loaded',unvaried'⟩ := ih ok' (loadRecord_loaded loaded rec)
      (loadRecord_unvaried unvaried rec) nodup' (fun r inside => by
        have other : r.vkey ≠ rec.vkey := fun same => fresh (same ▸ List.mem_map_of_mem inside)
        have kept : (idx.loadRecord rec).entries.lookup r.vkey = idx.entries.lookup r.vkey :=
          setEntry_others idx rec.vkey _ r.vkey other
        rw [kept]
        exact absent r (List.mem_cons_of_mem _ inside))
      fun r inside => owned r (List.mem_cons_of_mem _ inside)
    refine ⟨?_,loaded',unvaried'⟩
    rw [List.foldl_cons,same,loadRecord_records ok missing,List.append_assoc]
    rfl

theorem loadVary_vary {names : Key → List String} {pairs : List (Key × List String)}
    (agree : ∀ pair ∈ pairs,pair.2 = names pair.1) (p : Key) (info : Primary)
    (found : (pairs.foldl loadVary idx).primaries.lookup p = some info) :
    ∃ old,idx.primaries.lookup p = some old ∧ (p ∈ pairs.map Prod.fst → info.vary = names p) ∧
      (p ∉ pairs.map Prod.fst → info.vary = old.vary) := by
  induction pairs generalizing idx with
  | nil => exact ⟨info,found,fun listed => absurd listed List.not_mem_nil,fun _ => rfl⟩
  | cons pair rest ih =>
    obtain ⟨old,here,given,kept⟩ := ih (fun q inside => agree q (List.mem_cons_of_mem _ inside)) found
    have own := agree pair List.mem_cons_self
    rw [List.map_cons,List.mem_cons,not_or]
    have unmoved : ∀ before,idx.primaries.lookup p = some before → p ≠ pair.1 → old = before →
        ∃ old,idx.primaries.lookup p = some old ∧
          (p = pair.1 ∨ p ∈ rest.map Prod.fst → info.vary = names p) ∧
          (p ≠ pair.1 ∧ p ∉ rest.map Prod.fst → info.vary = old.vary) := by
      intro before known other same
      refine ⟨before,known,fun listed => given (listed.resolve_left other),fun missing => ?_⟩
      rw [← same]
      exact kept missing.2
    unfold loadVary at here
    cases known : idx.primaries.lookup pair.1 with
    | none =>
      rw [known] at here
      have other : p ≠ pair.1 := by
        intro at_
        rw [at_,known] at here
        cases here
      exact unmoved old here other rfl
    | some before =>
      rw [known] at here
      dsimp only at here
      rw [lookup_insert_if] at here
      split_ifs at here with at_
      · cases here
        refine ⟨before,at_ ▸ known,fun _ => ?_,fun missing => absurd at_ missing.1⟩
        by_cases later : p ∈ rest.map Prod.fst
        · exact given later
        · rw [kept later,own,at_]
      · exact unmoved old here at_ rfl

theorem loadVary_entries (pairs : List (Key × List String)) :
    (pairs.foldl loadVary idx).entries = idx.entries ∧ (pairs.foldl loadVary idx).diskLru = idx.diskLru := by
  induction pairs generalizing idx with
  | nil => exact ⟨rfl,rfl⟩
  | cons pair rest ih =>
    have step : (idx.loadVary pair).entries = idx.entries ∧ (idx.loadVary pair).diskLru = idx.diskLru := by
      unfold loadVary
      cases idx.primaries.lookup pair.1 <;> exact ⟨rfl,rfl⟩
    obtain ⟨entries,order⟩ := @ih (idx.loadVary pair)
    exact ⟨entries.trans step.1,order.trans step.2⟩

def Inherits (idx later : Index) : Prop :=
  ∀ p info,later.primaries.lookup p = some info →
    ∃ old,idx.primaries.lookup p = some old ∧ info.vary = old.vary

theorem Inherits.trans {idx later last : Index} (first : Inherits idx later) (second : Inherits later last) :
    Inherits idx last := by
  intro p info found
  obtain ⟨between,held,same⟩ := second p info found
  obtain ⟨old,here,same'⟩ := first p between held
  exact ⟨old,here,same.trans same'⟩

structure Restored (idx loaded : Index) : Prop where
  records : loaded.records = idx.records
  alone : loaded.Loaded
  inherits : Inherits idx loaded

theorem loaded_slot {loaded : Index} (ok : Represented owner loaded) (alone : loaded.Loaded) {k : Key}
    {e : Entry} (present : loaded.entries.lookup k = some e) : ∃ d,e.disk = some d := by
  obtain ⟨mem,pending⟩ := alone k e present
  have rooted := ok.rooted k e present
  rw [Entry.rootless,mem,pending] at rooted
  cases slot : e.disk with
  | none =>
    rw [slot] at rooted
    cases rooted
  | some d => exact ⟨d,rfl⟩

theorem primary_recorded {loaded : Index} (ok : Represented owner loaded) (alone : loaded.Loaded)
    {p : Key} {info : Primary} (found : loaded.primaries.lookup p = some info) :
    ∃ rec ∈ loaded.records,rec.primary = p := by
  have listed : loaded.variantsOf p = some info.variants := by
    rw [variantsOf,found]
    rfl
  obtain ⟨k,inside⟩ := List.exists_mem_of_ne_nil _ (ok.grouped.nonempty p _ listed)
  obtain ⟨e,present,same⟩ := Option.map_eq_some_iff.mp ((ok.grouped.exact p _ listed k).mp inside)
  obtain ⟨d,slot⟩ := loaded_slot ok alone present
  refine ⟨⟨k,e.primary,d.generation,d.size⟩,?_,same⟩
  exact (mem_records ok.toConsistent).mpr ⟨e,d,present,slot,rfl⟩

theorem record_primary (ok : Represented owner idx) {rec : IndexRecord} (listed : rec ∈ idx.records) :
    ∃ info,idx.primaries.lookup rec.primary = some info := by
  obtain ⟨e,d,present,-,same⟩ := (mem_records ok.toConsistent).mp listed
  have member : idx.primaryOf rec.vkey = some rec.primary := by
    rw [primaryOf,present,same]
    rfl
  obtain ⟨variants,found⟩ := Option.isSome_iff_exists.mp (ok.grouped.listed _ _ member)
  obtain ⟨info,here,-⟩ := Option.map_eq_some_iff.mp found
  exact ⟨info,here⟩

def varyOf (idx : Index) (p : Key) : List String := ((idx.primaries.lookup p).map Primary.vary).getD []

theorem snapshot_agrees (idx : Index) : ∀ pair ∈ idx.snapshot.1.vary,pair.2 = idx.varyOf pair.1 := by
  intro pair listed
  obtain ⟨q,-,taken⟩ := List.mem_filterMap.mp listed
  obtain ⟨info,held,same⟩ := Option.map_eq_some_iff.mp taken
  cases same
  rw [varyOf,(Option.filter_eq_some_iff.mp held).1]
  rfl

theorem snapshot_unvaried {rec : IndexRecord} (listed : rec ∈ idx.records) {info : Primary}
    (found : idx.primaries.lookup rec.primary = some info)
    (missing : rec.primary ∉ idx.snapshot.1.vary.map Prod.fst) : info.vary = [] := by
  by_contra varied
  apply missing
  refine List.mem_map.mpr ⟨(rec.primary,info.vary),List.mem_filterMap.mpr ⟨rec.primary,?_,?_⟩,rfl⟩
  · exact List.mem_dedup.mpr (List.mem_map_of_mem listed)
  · have kept : (!info.vary.isEmpty) = true := by
      rw [Bool.not_eq_true',List.isEmpty_eq_false_iff]
      exact varied
    rw [found,Option.filter_some,if_pos kept]
    rfl

theorem load_restored (ok : Represented owner idx) : Restored idx (load (some idx.snapshot.1)) := by
  have lists := snapshot_lists ok
  have represented := (@load_represented owner (some idx.snapshot.1) (by
    intro s same
    cases same
    exact lists)).1
  obtain ⟨records,loaded,unvaried⟩ := loadRecords_records (new_represented owner)
    (fun k e here => by cases here) (fun p info here => by cases here) lists.nodup
    (fun _ _ => Finmap.lookup_empty _) lists.owned
  have entries := @loadVary_entries (idx.snapshot.1.entries.foldl loadRecord new) idx.snapshot.1.vary
  have same : (load (some idx.snapshot.1)).records = idx.records := by
    have kept : (load (some idx.snapshot.1)).records =
        (idx.snapshot.1.entries.foldl loadRecord new).records := by
      unfold Index.records
      rw [lruKeys_inOrder,lruKeys_inOrder,load,entries.2]
      exact recordOf_congr fun k _ => by rw [entries.1]
    have nothing : new.lruKeys = [] := inOrder_empty fun _ => Finmap.lookup_empty _
    rw [kept,records,Index.records,nothing]
    rfl
  have alone : (load (some idx.snapshot.1)).Loaded := by
    intro k e here
    rw [load,entries.1] at here
    exact loaded k e here
  refine ⟨same,alone,fun p info found => ?_⟩
  obtain ⟨rec,listed,rfl⟩ := primary_recorded represented alone found
  rw [same] at listed
  obtain ⟨old,here⟩ := record_primary ok listed
  refine ⟨old,here,?_⟩
  obtain ⟨before,known,given,kept⟩ := loadVary_vary (snapshot_agrees idx) rec.primary info found
  by_cases varied : rec.primary ∈ idx.snapshot.1.vary.map Prod.fst
  · rw [given varied,varyOf,here]
    rfl
  · rw [kept varied,unvaried rec.primary before known,snapshot_unvaried listed here varied]

theorem forgetVariant_vary (primaries : FiniteMap Key Primary) (primary k p : Key) (info : Primary)
    (found : (forgetVariant primaries primary k).lookup p = some info) :
    ∃ old,primaries.lookup p = some old ∧ info.vary = old.vary := by
  unfold forgetVariant at found
  cases held : primaries.lookup primary with
  | none =>
    rw [held] at found
    exact ⟨info,found,rfl⟩
  | some old =>
    rw [held] at found
    dsimp only at found
    split_ifs at found with empty
    · rw [lookup_erase_if] at found
      split_ifs at found
      exact ⟨info,found,rfl⟩
    · rw [lookup_insert_if] at found
      split_ifs at found with here
      · cases found
        exact ⟨old,here ▸ held,rfl⟩
      · exact ⟨info,found,rfl⟩

theorem evictDiskPass_records (ok : Represented owner idx) (alone : idx.Loaded) {s : Nat} {k : Key}
    {rest : FiniteMap Nat Key} (first : popFirst idx.diskLru = some ((s,k),rest)) :
    (∃ rec,idx.records = rec :: (evictDiskPass {idx with diskLru := rest} s k).1.records) ∧
      (evictDiskPass {idx with diskLru := rest} s k).1.Loaded ∧
      Inherits idx (evictDiskPass {idx with diskLru := rest} s k).1 := by
  obtain ⟨after,order,-⟩ := evictDiskPass_represented ok first
  obtain ⟨e,d,present,slot,rfl,rfl⟩ := popped_disk ok.toConsistent first
  obtain ⟨mem,pending⟩ := alone k e present
  have rootless : Entry.rootless {e with disk := none} = true := by
    rw [Entry.rootless,mem,pending]
    rfl
  have there : (idx.dropDiskSlot k e).entries.lookup k = some {e with disk := none} := by
    rw [dropDiskSlot_lookup,if_pos rfl]
  rw [evictDiskPass_eq present slot,if_pos rootless] at after order ⊢
  have now : ∀ j,((idx.dropDiskSlot k e).remove k false).1.entries.lookup j =
      if j = k then none else idx.entries.lookup j := by
    intro j
    rw [remove_lookup]
    split_ifs with same
    · rfl
    · rw [dropDiskSlot_lookup,if_neg same]
  refine ⟨⟨⟨k,e.primary,d.generation,d.size⟩,?_⟩,?_,?_⟩
  · have keys : idx.lruKeys = k :: ((idx.dropDiskSlot k e).remove k false).1.lruKeys := by
      rw [lruKeys_inOrder,lruKeys_inOrder,order]
      exact inOrder_popFirst first
    have others : ∀ j ∈ ((idx.dropDiskSlot k e).remove k false).1.lruKeys,
        ((idx.dropDiskSlot k e).remove k false).1.entries.lookup j = idx.entries.lookup j := by
      intro j listed
      obtain ⟨e',-,held,-⟩ := (mem_lruKeys after.toConsistent).mp listed
      rw [now] at held ⊢
      split_ifs at held ⊢
      rfl
    rw [records,keys,List.filterMap_cons,recordOf_held present slot,← recordOf_congr others]
    rfl
  · intro j e' held
    rw [now] at held
    split_ifs at held
    exact alone j e' held
  · intro p info found
    have left : ((idx.dropDiskSlot k e).remove k false).1.primaries =
        forgetVariant idx.primaries e.primary k := by
      rw [remove_eq there,unlistDisk_eq _ k,unlistMem_eq _ k,dropDiskSlot,unlistDisk_eq _ k]
      rfl
    rw [left] at found
    exact forgetVariant_vary idx.primaries e.primary k p info found

/-- The oldest records are gone, and no more of them than it takes to get down to the target. -/
structure Evicted (target : Nat) (idx later : Index) (evicted : List IndexRecord) : Prop where
  records : idx.records = evicted ++ later.records
  needed : ∀ early rec late,evicted = early ++ rec :: late →
    target < ((rec :: late ++ later.records).map IndexRecord.size).sum
  alone : later.Loaded
  inherits : Inherits idx later

theorem evictDiskLoop_evicted (target : Nat) {fuel : Nat} (ok : Represented owner idx)
    (alone : idx.Loaded) (deletes : List Path) :
    ∃ evicted,Evicted target idx (evictDiskLoop target fuel idx deletes).1 evicted := by
  have none_ : Evicted target idx idx [] :=
    ⟨rfl,fun early rec late same => by simp at same,alone,fun p info found => ⟨info,found,rfl⟩⟩
  induction fuel generalizing idx deletes with
  | zero => exact ⟨[],none_⟩
  | succ fuel ih =>
    unfold evictDiskLoop
    split_ifs with within
    · exact ⟨[],none_⟩
    · cases first : popFirst idx.diskLru with
      | none => exact ⟨[],none_⟩
      | some popped =>
        obtain ⟨⟨s,k⟩,rest⟩ := popped
        obtain ⟨ok',-,-⟩ := evictDiskPass_represented ok first
        obtain ⟨⟨rec,records⟩,alone',inherits⟩ := evictDiskPass_records ok alone first
        obtain ⟨evicted,later⟩ := ih ok' alone' (deletes ++ _)
          ⟨rfl,fun early rec late same => by simp at same,alone',fun p info found => ⟨info,found,rfl⟩⟩
        refine ⟨rec :: evicted,?_,?_,later.alone,inherits.trans later.inherits⟩
        · rw [records,later.records]
          rfl
        · intro early r late same
          cases early with
          | nil =>
            cases same
            rw [diskBytes_records ok.toConsistent,records,later.records] at within
            exact Nat.lt_of_not_le within
          | cons a early =>
            obtain ⟨-,same⟩ := List.cons.inj same
            exact later.needed early r late same

end Index

/-- The disk tier of an index in one that was opened with a budget from its snapshot. -/
structure Reopened (budget : Nat) (idx opened : Index) : Prop where
  records : ∃ evicted,idx.records = evicted ++ opened.records ∧
    idx.diskBytes = (evicted.map IndexRecord.size).sum + opened.diskBytes ∧
    (idx.diskBytes ≤ budget → evicted = []) ∧
    ∀ early rec late,evicted = early ++ rec :: late →
      budget / 10 * 9 < ((rec :: late ++ opened.records).map IndexRecord.size).sum
  keys : ∀ k,(opened.entries.lookup k).isSome ↔ k ∈ opened.records.map IndexRecord.vkey
  variants : ∀ p,((opened.variantsOf p).getD []).Perm
    (((idx.variantsOf p).getD []).filter fun k => k ∈ opened.records.map IndexRecord.vkey)
  vary : idx.Inherits opened

namespace HttpCache

variable {digest128 : List UInt8 → Key} {owner : Key → Key}

theorem getD_nodup {idx : Index} (ok : Represented owner idx) (p : Key) :
    ((idx.variantsOf p).getD []).Nodup ∧ ∀ k,k ∈ (idx.variantsOf p).getD [] ↔ idx.primaryOf k = some p := by
  cases found : idx.variantsOf p with
  | none =>
    refine ⟨List.nodup_nil,fun k => iff_of_false List.not_mem_nil fun member => ?_⟩
    have listed := ok.grouped.listed k p member
    rw [found] at listed
    cases listed
  | some variants => exact ⟨ok.grouped.nodup p variants found,ok.grouped.exact p variants found⟩

theorem openDir_reopened {c : HttpCache} (sound : c.Sound owner) (memoryBudget diskBudget : Nat) :
    Reopened diskBudget c.index (openDir true memoryBudget diskBudget (some c.index.snapshot.1)).index := by
  have ok := sound.represented
  have restored := Index.load_restored ok
  have loaded := (@Index.load_represented owner (some c.index.snapshot.1) (by
    intro s same
    cases same
    exact Index.snapshot_lists ok)).1
  have final := (Index.evictDisk_represented (Limits.ofBudgets memoryBudget diskBudget) loaded []).1
  have same : (openDir true memoryBudget diskBudget (some c.index.snapshot.1)).index =
      ((Index.load (some c.index.snapshot.1)).evictDisk (Limits.ofBudgets memoryBudget diskBudget) []).1 :=
    rfl
  rw [same]
  have bytes : (Index.load (some c.index.snapshot.1)).diskBytes = c.index.diskBytes := by
    rw [Index.diskBytes_records loaded.toConsistent,restored.records,
      Index.diskBytes_records ok.toConsistent]
  obtain ⟨evicted,kept,fits⟩ : ∃ evicted,Index.Evicted (diskBudget / 10 * 9)
      (Index.load (some c.index.snapshot.1))
      ((Index.load (some c.index.snapshot.1)).evictDisk (Limits.ofBudgets memoryBudget diskBudget) []).1
      evicted ∧ (c.index.diskBytes ≤ diskBudget → evicted = []) := by
    unfold Index.evictDisk
    split_ifs with within
    · exact ⟨[],⟨rfl,fun early rec late same => by simp at same,restored.alone,
        fun p info found => ⟨info,found,rfl⟩⟩,fun _ => rfl⟩
    · obtain ⟨evicted,kept⟩ := Index.evictDiskLoop_evicted (diskBudget / 10 * 9) loaded restored.alone []
      rw [bytes] at within
      exact ⟨evicted,kept,fun fits => absurd fits within⟩
  generalize ((Index.load (some c.index.snapshot.1)).evictDisk (Limits.ofBudgets memoryBudget diskBudget)
    []).1 = opened at final kept
  have records := restored.records.symm.trans kept.records
  have keys : ∀ k,(opened.entries.lookup k).isSome ↔ k ∈ opened.records.map IndexRecord.vkey := by
    intro k
    rw [Option.isSome_iff_exists,List.mem_map]
    constructor
    · intro present
      obtain ⟨e,present⟩ := present
      obtain ⟨d,slot⟩ := Index.loaded_slot final kept.alone present
      exact ⟨⟨k,e.primary,d.generation,d.size⟩,
        (Index.mem_records final.toConsistent).mpr ⟨e,d,present,slot,rfl⟩,rfl⟩
    · intro listed
      obtain ⟨rec,inside,rfl⟩ := listed
      obtain ⟨e,-,present,-⟩ := (Index.mem_records final.toConsistent).mp inside
      exact ⟨e,present⟩
  have primary : ∀ k e,opened.entries.lookup k = some e → c.index.primaryOf k = some e.primary := by
    intro k e present
    obtain ⟨d,slot⟩ := Index.loaded_slot final kept.alone present
    have inside : ⟨k,e.primary,d.generation,d.size⟩ ∈ c.index.records := by
      rw [records]
      exact List.mem_append_right evicted
        ((Index.mem_records final.toConsistent).mpr ⟨e,d,present,slot,rfl⟩)
    obtain ⟨old,slot,held,-,equal⟩ := (Index.mem_records ok.toConsistent).mp inside
    have own : e.primary = old.primary := (IndexRecord.mk.inj equal).2.1
    rw [Index.primaryOf,held,own]
    rfl
  refine ⟨⟨evicted,records,?_,fits,kept.needed⟩,keys,fun p => ?_,restored.inherits.trans kept.inherits⟩
  · rw [Index.diskBytes_records ok.toConsistent,records,Index.diskBytes_records final.toConsistent,
      List.map_append,List.sum_append]
  · obtain ⟨nodup,members⟩ := getD_nodup final p
    obtain ⟨nodup',members'⟩ := getD_nodup ok p
    apply (List.perm_ext_iff_of_nodup nodup (nodup'.filter _)).mpr
    intro k
    rw [List.mem_filter,members,members',decide_eq_true_eq,← keys]
    cases present : opened.entries.lookup k with
    | none => simp [Index.primaryOf,present]
    | some e =>
      rw [primary k e present,Index.primaryOf,present]
      simp

/-- Whatever the cache has done, opening it again from its snapshot gives it its disk tier back. -/
theorem always_reopened (digest128 : List UInt8 → Key) (owner : Key → Key) (dir : Bool)
    (memoryBudget diskBudget : Nat) (sections : List Section)
    (distinct : ∀ s ∈ sections,Collisionless digest128 owner s) :
    Runs.Always (fun c s => some (step digest128 c s))
      (fun c => ∀ memoryBudget diskBudget,Reopened diskBudget c.index
        (openDir true memoryBudget diskBudget (some c.index.snapshot.1)).index)
      (openDir dir memoryBudget diskBudget none) sections :=
  always_sound (fun _ sound memoryBudget diskBudget => openDir_reopened sound memoryBudget diskBudget)
    distinct (opened_sound owner dir memoryBudget diskBudget)

end HttpCache

namespace Sample

set_option maxRecDepth 20000 in
theorem always_reopened_restart : Runs.Always (fun c s => some (HttpCache.step digest c s))
      (fun c => ∀ memoryBudget diskBudget,Reopened diskBudget c.index
        (HttpCache.openDir true memoryBudget diskBudget (some c.index.snapshot.1)).index)
      (HttpCache.openDir true 8192 8192 none) restart := by
  apply HttpCache.always_reopened digest owner
  have varied : owner (storeKey digest page true [("accept","text/css")] ["accept"]) =
      primaryKey digest page true := by
    rfl
  have plain : owner (storeKey digest page false [] []) = primaryKey digest page false := by
    rfl
  simp [restart,HttpCache.Collisionless,varied,plain]

end Sample

end Sharko.Netstack.Cache
