import Sharko.Library.Grouping
import Sharko.Netstack.Cache.Index

/-! What the coupled structures of the cache index owe each other, and that every
critical section keeps it. -/

namespace Sharko.Netstack.Cache
open Library FiniteMap

def memSlot (e : Entry) : Option (Nat × Nat) := e.mem.map fun m => (m.seq,m.weight)

def diskSlot (e : Entry) : Option (Nat × Nat) := e.disk.map fun d => (d.seq,d.size)

def Index.primaryOf (idx : Index) (k : Key) : Option Key := (idx.entries.lookup k).map Entry.primary

def Index.variantsOf (idx : Index) (p : Key) : Option (List Key) :=
  (idx.primaries.lookup p).map Primary.variants

/-- The orders mirror the slots, the counters are their sums, the variants are
grouped, and no counter was ever decreased below zero. -/
structure Consistent (idx : Index) : Prop where
  mem : Recency memSlot idx.entries idx.memLru idx.memBytes idx.nextSeq
  disk : Recency diskSlot idx.entries idx.diskLru idx.diskBytes idx.nextSeq
  grouped : Grouping idx.primaryOf idx.variantsOf
  exact : idx.underflow = false

def Rooted (idx : Index) : Prop := ∀ k e, idx.entries.lookup k = some e → e.rootless = false

def Owned (owner : Key → Key) (idx : Index) : Prop :=
  ∀ k e, idx.entries.lookup k = some e → e.primary = owner k

/-- A snapshot lists every variant key once, with the primary it belongs to. -/
structure IndexSnapshot.Lists (owner : Key → Key) (s : IndexSnapshot) : Prop where
  nodup : (s.entries.map IndexRecord.vkey).Nodup
  owned : ∀ rec ∈ s.entries, rec.primary = owner rec.vkey

structure Represented (owner : Key → Key) (idx : Index) : Prop extends Consistent idx where
  rooted : Rooted idx
  owned : Owned owner idx

namespace Index

/-! ### Removing an entry -/

theorem setEntry_lookup (idx : Index) (k j : Key) (e : Entry) :
    (idx.setEntry k e).entries.lookup j = if j = k then some e else idx.entries.lookup j :=
  lookup_insert_if idx.entries k j e

theorem unlistMem_eq (idx : Index) (k : Key) (old : Option MemSlot) : idx.unlistMem old = {idx with
      memLru := relist idx.memLru k (old.map fun m => (m.seq,m.weight)) none
      memBytes := reweigh idx.memBytes (old.map fun m => (m.seq,m.weight)) none
      underflow := idx.underflow || (old.any fun m => idx.memBytes < m.weight)} := by
  cases old <;> simp [unlistMem,freeMem,relist,reweigh]

theorem unlistDisk_eq (idx : Index) (k : Key) (old : Option DiskSlot) : idx.unlistDisk old = {idx with
      diskLru := relist idx.diskLru k (old.map fun d => (d.seq,d.size)) none
      diskBytes := reweigh idx.diskBytes (old.map fun d => (d.seq,d.size)) none
      dirty := idx.dirty || old.isSome
      underflow := idx.underflow || (old.any fun d => idx.diskBytes < d.size)} := by
  cases old <;> simp [unlistDisk,freeDisk,relist,reweigh]

theorem memBytes_enough {idx : Index}
    (tier : Recency memSlot idx.entries idx.memLru idx.memBytes idx.nextSeq) {k : Key} {e : Entry}
    (present : idx.entries.lookup k = some e) :
    (e.mem.any fun m => decide (idx.memBytes < m.weight)) = false := by
  cases held : e.mem with
  | none => rfl
  | some m =>
    have bound := tier.weight_le present (s := m.seq) (w := m.weight) (by simp [memSlot,held])
    simpa using bound

theorem diskBytes_enough {idx : Index}
    (tier : Recency diskSlot idx.entries idx.diskLru idx.diskBytes idx.nextSeq) {k : Key} {e : Entry}
    (present : idx.entries.lookup k = some e) :
    (e.disk.any fun d => decide (idx.diskBytes < d.size)) = false := by
  cases held : e.disk with
  | none => rfl
  | some d =>
    have bound := tier.weight_le present (s := d.seq) (w := d.size) (by simp [diskSlot,held])
    simpa using bound

theorem forgetVariant_variants (idx : Index) (primary k p : Key) :
    ((forgetVariant idx.primaries primary k).lookup p).map Primary.variants =
      if p = primary then withoutMember idx.variantsOf k primary else idx.variantsOf p := by
  unfold forgetVariant withoutMember variantsOf
  by_cases same : p = primary
  · subst same
    rw [if_pos rfl]
    cases found : idx.primaries.lookup p with
    | none => simp [found]
    | some info =>
      by_cases empty : (info.variants.filter (· ≠ k)).isEmpty = true
      · simp only [empty,if_true,Option.map_some,Option.filter_some]
        simp
      · simp only [empty,Option.map_some,Option.filter_some]
        simp
  · rw [if_neg same]
    cases found : idx.primaries.lookup primary with
    | none => rfl
    | some info =>
      simp only
      split_ifs
      · simp [same]
      · simp [same]

theorem remove_eq {idx : Index} {k : Key} {e : Entry} (present : idx.entries.lookup k = some e)
    (disk : Bool) : (idx.remove k disk).1 =
      unlistDisk {unlistMem {idx with entries := idx.entries.erase k} e.mem with
        primaries := forgetVariant idx.primaries e.primary k} e.disk := by
  unfold remove
  simp only [present]
  rw [unlistMem_eq _ k]

theorem remove_absent {idx : Index} {k : Key} (absent : idx.entries.lookup k = none) (disk : Bool) :
    idx.remove k disk = (idx,none) := by
  simp [remove,absent]

theorem remove_lookup (idx : Index) (k j : Key) (disk : Bool) :
    (idx.remove k disk).1.entries.lookup j = if j = k then none else idx.entries.lookup j := by
  cases present : idx.entries.lookup k with
  | none =>
    rw [remove_absent present]
    split_ifs with same
    · rw [same,present]
    · rfl
  | some e =>
    rw [remove_eq present,unlistDisk_eq _ k,unlistMem_eq _ k]
    exact lookup_erase_if idx.entries k j

theorem remove_consistent {idx : Index} (ok : Consistent idx) (k : Key) (disk : Bool) :
    Consistent (idx.remove k disk).1 := by
  cases present : idx.entries.lookup k with
  | none =>
    rw [remove_absent present]
    exact ok
  | some e =>
    rw [remove_eq present,unlistDisk_eq _ k,unlistMem_eq _ k]
    have others : ∀ j, j ≠ k → (idx.entries.erase k).lookup j = idx.entries.lookup j :=
      fun j other => Finmap.lookup_erase_ne other
    refine ⟨?_,?_,?_,?_⟩
    · exact ok.mem.change k (memSlot e) none (by simp [present]) (by simp) others le_rfl (by simp)
    · exact ok.disk.change k (diskSlot e) none (by simp [present]) (by simp) others le_rfl (by simp)
    · have left := ok.grouped.leave (a := k) (c := e.primary) (by simp [primaryOf,present])
      convert left using 1
      · funext j
        unfold primaryOf
        rw [lookup_erase_if]
        split_ifs <;> rfl
      · funext p
        exact forgetVariant_variants idx e.primary k p
    · simp [ok.exact,memBytes_enough ok.mem present,diskBytes_enough ok.disk present]

/-! ### Eviction -/

theorem primaryOf_setEntry {idx : Index} {k : Key} {e : Entry}
    (present : idx.entries.lookup k = some e) (e' : Entry) (same : e'.primary = e.primary) :
    (idx.setEntry k e').primaryOf = idx.primaryOf := by
  funext j
  unfold primaryOf
  rw [setEntry_lookup]
  split_ifs with here
  · rw [here,present,Option.map_some,Option.map_some,same]
  · rfl

theorem setEntry_others (idx : Index) (k : Key) (e : Entry) :
    ∀ j, j ≠ k → (idx.setEntry k e).entries.lookup j = idx.entries.lookup j := by
  intro j other
  rw [setEntry_lookup,if_neg other]

theorem dropMemCopy_eq {idx : Index} {k : Key} {e : Entry} (present : idx.entries.lookup k = some e) :
    idx.dropMemCopy k = (idx.setEntry k {e with mem := none}).unlistMem e.mem := by
  simp [dropMemCopy,present]

theorem dropMemCopy_lookup {idx : Index} {k : Key} {e : Entry}
    (present : idx.entries.lookup k = some e) (j : Key) : (idx.dropMemCopy k).entries.lookup j =
      if j = k then some {e with mem := none} else idx.entries.lookup j := by
  rw [dropMemCopy_eq present,unlistMem_eq _ k]
  exact setEntry_lookup idx k j _

theorem dropMemCopy_consistent {idx : Index} (ok : Consistent idx) {k : Key} {e : Entry}
    (present : idx.entries.lookup k = some e) : Consistent (idx.dropMemCopy k) := by
  rw [dropMemCopy_eq present,unlistMem_eq _ k]
  have others := setEntry_others idx k {e with mem := none}
  refine ⟨?_,?_,?_,?_⟩
  · exact ok.mem.change k (memSlot e) none (by simp [present])
      (by simp [setEntry_lookup,memSlot]) others le_rfl (by simp)
  · exact ok.disk.keep k (by simp [setEntry_lookup,present,diskSlot]) others
  · have same := primaryOf_setEntry present {e with mem := none} rfl
    exact same ▸ ok.grouped
  · have enough := memBytes_enough ok.mem present
    simpa [setEntry,ok.exact] using enough

theorem popped_mem {idx : Index} (ok : Consistent idx) {s : Nat} {k : Key} {rest : FiniteMap Nat Key}
    (first : popFirst idx.memLru = some ((s,k),rest)) :
    ∃ e m, idx.entries.lookup k = some e ∧ e.mem = some m ∧ m.seq = s ∧ rest = idx.memLru.erase s := by
  obtain ⟨e,w,present,held,rfl⟩ := ok.mem.popped first
  obtain ⟨m,found,pair⟩ := Option.map_eq_some_iff.mp held
  cases pair
  exact ⟨e,m,present,found,rfl,rfl⟩

theorem popped_disk {idx : Index} (ok : Consistent idx) {s : Nat} {k : Key} {rest : FiniteMap Nat Key}
    (first : popFirst idx.diskLru = some ((s,k),rest)) :
    ∃ e d, idx.entries.lookup k = some e ∧ e.disk = some d ∧ d.seq = s ∧ rest = idx.diskLru.erase s := by
  obtain ⟨e,w,present,held,rfl⟩ := ok.disk.popped first
  obtain ⟨d,found,pair⟩ := Option.map_eq_some_iff.mp held
  cases pair
  exact ⟨e,d,present,found,rfl,rfl⟩

/-- A pass over a listed memory slot drops the copy, and the entry with it if
nothing else roots it. -/
theorem evictMemoryPass_eq {idx : Index} {k : Key} {e : Entry} {m : MemSlot}
    (present : idx.entries.lookup k = some e) (held : e.mem = some m) (disk : Bool) :
    evictMemoryPass {idx with memLru := idx.memLru.erase m.seq} disk m.seq k =
      if e.disk.isSome || (disk && e.pendingWrite.isSome) then (idx.dropMemCopy k,[])
      else (((idx.dropMemCopy k).remove k disk).1,((idx.dropMemCopy k).remove k disk).2.toList) := by
  simp only [evictMemoryPass,dropMemCopy,present,held,if_true]
  rfl

variable {owner : Key → Key}

theorem replaced {idx idx' : Index} (ok : Represented owner idx) (consistent : Consistent idx')
    {k : Key} {e : Entry} (now : ∀ j, idx'.entries.lookup j = if j = k then some e else idx.entries.lookup j)
    (rooted : e.rootless = false) (owned : e.primary = owner k) : Represented owner idx' := by
  refine ⟨consistent,?_,?_⟩
  · intro j e' here
    rw [now] at here
    split_ifs at here with same
    · exact Option.some.inj here ▸ rooted
    · exact ok.rooted j e' here
  · intro j e' here
    rw [now] at here
    split_ifs at here with same
    · rw [same,← owned,Option.some.inj here]
    · exact ok.owned j e' here

theorem removed {idx idx' : Index} (ok : Represented owner idx) (consistent : Consistent idx')
    {k : Key} (now : ∀ j, j ≠ k → idx'.entries.lookup j = idx.entries.lookup j)
    (gone : idx'.entries.lookup k = none) : Represented owner idx' := by
  have kept : ∀ j e, idx'.entries.lookup j = some e → idx.entries.lookup j = some e := by
    intro j e here
    by_cases same : j = k
    · rw [same,gone] at here
      cases here
    · rwa [now j same] at here
  exact ⟨consistent,fun j e here => ok.rooted j e (kept j e here),
    fun j e here => ok.owned j e (kept j e here)⟩

theorem remove_represented {idx : Index} (ok : Represented owner idx) (k : Key) (disk : Bool) :
    Represented owner (idx.remove k disk).1 := by
  apply removed ok (remove_consistent ok.toConsistent k disk)
  · intro j other
    rw [remove_lookup,if_neg other]
  · rw [remove_lookup,if_pos rfl]

theorem remove_memLru {idx : Index} {k : Key} {e : Entry} (present : idx.entries.lookup k = some e)
    (none : e.mem = none) (disk : Bool) : (idx.remove k disk).1.memLru = idx.memLru := by
  rw [remove_eq present,unlistDisk_eq _ k,unlistMem_eq _ k]
  simp [none,relist]

theorem remove_diskLru {idx : Index} {k : Key} {e : Entry} (present : idx.entries.lookup k = some e)
    (none : e.disk = none) (disk : Bool) : (idx.remove k disk).1.diskLru = idx.diskLru := by
  rw [remove_eq present,unlistDisk_eq _ k,unlistMem_eq _ k]
  simp [none,relist]

theorem remove_bytes (idx : Index) (k : Key) (disk : Bool) :
    (idx.remove k disk).1.memBytes ≤ idx.memBytes ∧ (idx.remove k disk).1.diskBytes ≤ idx.diskBytes := by
  cases present : idx.entries.lookup k with
  | none => simp [remove_absent present]
  | some e =>
    rw [remove_eq present,unlistDisk_eq _ k,unlistMem_eq _ k]
    simp [reweigh]

theorem evictMemoryPass_represented {idx : Index} (ok : Represented owner idx) {s : Nat} {k : Key}
    {rest : FiniteMap Nat Key} (first : popFirst idx.memLru = some ((s,k),rest)) (disk : Bool) :
    Represented owner (evictMemoryPass {idx with memLru := rest} disk s k).1 ∧
      (evictMemoryPass {idx with memLru := rest} disk s k).1.memLru = rest ∧
      (evictMemoryPass {idx with memLru := rest} disk s k).1.diskBytes ≤ idx.diskBytes := by
  obtain ⟨e,m,present,held,rfl,rfl⟩ := popped_mem ok.toConsistent first
  rw [evictMemoryPass_eq present held]
  have dropped := dropMemCopy_consistent ok.toConsistent present
  have now := dropMemCopy_lookup present
  have order : (idx.dropMemCopy k).memLru = idx.memLru.erase m.seq := by
    rw [dropMemCopy_eq present,held]
    rfl
  have bytes : (idx.dropMemCopy k).diskBytes = idx.diskBytes := by
    rw [dropMemCopy_eq present,unlistMem_eq _ k]
    rfl
  split_ifs with keep
  · have rooted : Entry.rootless {e with mem := none} = false := by
      cases slot : e.disk <;> simp_all [Entry.rootless]
    exact ⟨replaced ok dropped now rooted (ok.owned k e present),order,bytes.le⟩
  · have there : (idx.dropMemCopy k).entries.lookup k = some {e with mem := none} := by
      rw [now,if_pos rfl]
    refine ⟨?_,?_,?_⟩
    · apply removed ok (remove_consistent dropped k disk)
      · intro j other
        rw [remove_lookup,if_neg other,now,if_neg other]
      · rw [remove_lookup,if_pos rfl]
    · rw [remove_memLru there rfl,order]
    · exact (remove_bytes _ k disk).2.trans bytes.le

theorem evictMemoryLoop_represented (limits : Limits) (disk : Bool) {fuel : Nat} {idx : Index}
    (ok : Represented owner idx) (enough : idx.memLru.keys.card ≤ fuel) (deletes : List Path) :
    Represented owner (evictMemoryLoop limits disk fuel idx deletes).1 ∧
      (evictMemoryLoop limits disk fuel idx deletes).1.memBytes ≤ limits.memBudget ∧
      (evictMemoryLoop limits disk fuel idx deletes).1.diskBytes ≤ idx.diskBytes := by
  have emptied : (∀ s, idx.memLru.lookup s = none) → idx.memBytes ≤ limits.memBudget := by
    intro nothing
    rw [ok.mem.empty_sum nothing]
    exact Nat.zero_le _
  induction fuel generalizing idx deletes with
  | zero =>
    refine ⟨ok,emptied ?_,le_rfl⟩
    intro s
    rw [Finmap.lookup_eq_none,← Finmap.mem_keys,Finset.card_eq_zero.mp (Nat.le_zero.mp enough)]
    simp
  | succ fuel ih =>
    unfold evictMemoryLoop
    split_ifs with within
    · exact ⟨ok,within,le_rfl⟩
    · cases first : popFirst idx.memLru with
      | none => exact absurd (emptied (popFirst_none first)) within
      | some popped =>
        obtain ⟨⟨s,k⟩,rest⟩ := popped
        obtain ⟨ok',order,bytes⟩ := evictMemoryPass_represented ok first disk
        obtain ⟨listed,rfl⟩ := popFirst_some first
        have fewer := card_erase listed
        have enough' : (evictMemoryPass {idx with memLru := idx.memLru.erase s} disk s k).1.memLru.keys.card
            ≤ fuel := by
          rw [order]
          omega
        obtain ⟨final,within',bytes'⟩ := ih ok' enough' (deletes ++ _) fun nothing => by
          rw [ok'.mem.empty_sum nothing]
          exact Nat.zero_le _
        exact ⟨final,within',bytes'.trans bytes⟩

theorem evictMemory_represented (limits : Limits) (disk : Bool) {idx : Index}
    (ok : Represented owner idx) (deletes : List Path) :
    Represented owner (idx.evictMemory limits disk deletes).1 ∧
      (idx.evictMemory limits disk deletes).1.memBytes ≤ limits.memBudget ∧
      (idx.evictMemory limits disk deletes).1.diskBytes ≤ idx.diskBytes :=
  evictMemoryLoop_represented limits disk ok le_rfl deletes

def dropDiskSlot (idx : Index) (k : Key) (e : Entry) : Index :=
  (idx.setEntry k {e with disk := none}).unlistDisk e.disk

theorem dropDiskSlot_lookup (idx : Index) (k : Key) (e : Entry) (j : Key) :
    (idx.dropDiskSlot k e).entries.lookup j =
      if j = k then some {e with disk := none} else idx.entries.lookup j := by
  rw [dropDiskSlot,unlistDisk_eq _ k]
  exact setEntry_lookup idx k j _

theorem dropDiskSlot_consistent {idx : Index} (ok : Consistent idx) {k : Key} {e : Entry}
    (present : idx.entries.lookup k = some e) : Consistent (idx.dropDiskSlot k e) := by
  rw [dropDiskSlot,unlistDisk_eq _ k]
  have others := setEntry_others idx k {e with disk := none}
  refine ⟨?_,?_,?_,?_⟩
  · exact ok.mem.keep k (by simp [setEntry_lookup,present,memSlot]) others
  · exact ok.disk.change k (diskSlot e) none (by simp [present])
      (by simp [setEntry_lookup,diskSlot]) others le_rfl (by simp)
  · have same := primaryOf_setEntry present {e with disk := none} rfl
    exact same ▸ ok.grouped
  · have enough := diskBytes_enough ok.disk present
    simpa [setEntry,ok.exact] using enough

theorem evictDiskPass_eq {idx : Index} {k : Key} {e : Entry} {d : DiskSlot}
    (present : idx.entries.lookup k = some e) (held : e.disk = some d) :
    evictDiskPass {idx with diskLru := idx.diskLru.erase d.seq} d.seq k =
      if Entry.rootless {e with disk := none} then
        (((idx.dropDiskSlot k e).remove k false).1,[(k,d.generation)])
      else (idx.dropDiskSlot k e,[(k,d.generation)]) := by
  simp only [evictDiskPass,takeDisk,dropDiskSlot,present,held,if_true]
  rfl

theorem evictDiskPass_represented {idx : Index} (ok : Represented owner idx) {s : Nat} {k : Key}
    {rest : FiniteMap Nat Key} (first : popFirst idx.diskLru = some ((s,k),rest)) :
    Represented owner (evictDiskPass {idx with diskLru := rest} s k).1 ∧
      (evictDiskPass {idx with diskLru := rest} s k).1.diskLru = rest ∧
      (evictDiskPass {idx with diskLru := rest} s k).1.memBytes ≤ idx.memBytes := by
  obtain ⟨e,d,present,held,rfl,rfl⟩ := popped_disk ok.toConsistent first
  rw [evictDiskPass_eq present held]
  have dropped := dropDiskSlot_consistent ok.toConsistent present
  have now := dropDiskSlot_lookup idx k e
  have order : (idx.dropDiskSlot k e).diskLru = idx.diskLru.erase d.seq := by
    rw [dropDiskSlot,held]
    rfl
  have bytes : (idx.dropDiskSlot k e).memBytes = idx.memBytes := by
    rw [dropDiskSlot,unlistDisk_eq _ k]
    rfl
  split_ifs with rootless
  · have there : (idx.dropDiskSlot k e).entries.lookup k = some {e with disk := none} := by
      rw [now,if_pos rfl]
    refine ⟨?_,?_,?_⟩
    · apply removed ok (remove_consistent dropped k false)
      · intro j other
        rw [remove_lookup,if_neg other,now,if_neg other]
      · rw [remove_lookup,if_pos rfl]
    · rw [remove_diskLru there rfl,order]
    · exact (remove_bytes _ k false).1.trans bytes.le
  · have rooted := Bool.eq_false_iff.mpr rootless
    exact ⟨replaced ok dropped now rooted (ok.owned k e present),order,bytes.le⟩

theorem evictDiskLoop_represented (target : Nat) {fuel : Nat} {idx : Index}
    (ok : Represented owner idx) (enough : idx.diskLru.keys.card ≤ fuel) (deletes : List Path) :
    Represented owner (evictDiskLoop target fuel idx deletes).1 ∧
      (evictDiskLoop target fuel idx deletes).1.diskBytes ≤ target ∧
      (evictDiskLoop target fuel idx deletes).1.memBytes ≤ idx.memBytes := by
  have emptied : (∀ s, idx.diskLru.lookup s = none) → idx.diskBytes ≤ target := by
    intro nothing
    rw [ok.disk.empty_sum nothing]
    exact Nat.zero_le _
  induction fuel generalizing idx deletes with
  | zero =>
    refine ⟨ok,emptied ?_,le_rfl⟩
    intro s
    rw [Finmap.lookup_eq_none,← Finmap.mem_keys,Finset.card_eq_zero.mp (Nat.le_zero.mp enough)]
    simp
  | succ fuel ih =>
    unfold evictDiskLoop
    split_ifs with within
    · exact ⟨ok,within,le_rfl⟩
    · cases first : popFirst idx.diskLru with
      | none => exact absurd (emptied (popFirst_none first)) within
      | some popped =>
        obtain ⟨⟨s,k⟩,rest⟩ := popped
        obtain ⟨ok',order,bytes⟩ := evictDiskPass_represented ok first
        obtain ⟨listed,rfl⟩ := popFirst_some first
        have fewer := card_erase listed
        have enough' : (evictDiskPass {idx with diskLru := idx.diskLru.erase s} s k).1.diskLru.keys.card
            ≤ fuel := by
          rw [order]
          omega
        obtain ⟨final,within',bytes'⟩ := ih ok' enough' (deletes ++ _) fun nothing => by
          rw [ok'.disk.empty_sum nothing]
          exact Nat.zero_le _
        exact ⟨final,within',bytes'.trans bytes⟩

theorem evictDisk_represented (limits : Limits) {idx : Index} (ok : Represented owner idx)
    (deletes : List Path) : Represented owner (idx.evictDisk limits deletes).1 ∧
      (idx.evictDisk limits deletes).1.diskBytes ≤ limits.diskBudget ∧
      (idx.evictDisk limits deletes).1.memBytes ≤ idx.memBytes := by
  unfold evictDisk
  split_ifs with within
  · exact ⟨ok,within,le_rfl⟩
  · obtain ⟨final,within',bytes⟩ :=
      evictDiskLoop_represented (limits.diskBudget / 10 * 9) ok le_rfl deletes
    refine ⟨final,?_,bytes⟩
    omega

/-! ### Lookups and promotions -/

theorem memSlot_touched (e : Entry) (s : Nat) :
    memSlot (e.touched s) = (memSlot e).map fun held => (s,held.2) := by
  simp [memSlot,Entry.touched,Function.comp_def]

theorem diskSlot_touched (e : Entry) (s : Nat) :
    diskSlot (e.touched s) = (diskSlot e).map fun held => (s,held.2) := by
  simp [diskSlot,Entry.touched,Function.comp_def]

theorem touch_eq {idx : Index} {k : Key} {e : Entry} (present : idx.entries.lookup k = some e) :
    idx.touch k = {idx.setEntry k (e.touched (idx.nextSeq + 1)) with
      nextSeq := idx.nextSeq + 1
      memLru := relist idx.memLru k (memSlot e) (memSlot (e.touched (idx.nextSeq + 1)))
      diskLru := relist idx.diskLru k (diskSlot e) (diskSlot (e.touched (idx.nextSeq + 1)))} := by
  rw [memSlot_touched,diskSlot_touched]
  unfold memSlot diskSlot
  cases mem : e.mem <;> cases disk : e.disk <;>
    simp [touch,seq,present,mem,disk,relist,setEntry]

theorem touch_lookup {idx : Index} {k : Key} {e : Entry} (present : idx.entries.lookup k = some e)
    (j : Key) : (idx.touch k).entries.lookup j =
      if j = k then some (e.touched (idx.nextSeq + 1)) else idx.entries.lookup j := by
  rw [touch_eq present]
  exact setEntry_lookup idx k j _

theorem touch_represented {idx : Index} (ok : Represented owner idx) {k : Key} {e : Entry}
    (present : idx.entries.lookup k = some e) : Represented owner (idx.touch k) := by
  have rooted : (e.touched (idx.nextSeq + 1)).rootless = false := by
    simpa [Entry.rootless,Entry.touched] using ok.rooted k e present
  refine replaced ok ?_ (touch_lookup present) rooted (ok.owned k e present)
  rw [touch_eq present]
  have others := setEntry_others idx k (e.touched (idx.nextSeq + 1))
  have after : (idx.setEntry k (e.touched (idx.nextSeq + 1))).entries.lookup k =
      some (e.touched (idx.nextSeq + 1)) := by
    rw [setEntry_lookup,if_pos rfl]
  refine ⟨?_,?_,?_,ok.exact⟩
  · exact ok.mem.renumber present after others (memSlot_touched e _) (Nat.lt_succ_self _) le_rfl
  · exact ok.disk.renumber present after others (diskSlot_touched e _) (Nat.lt_succ_self _) le_rfl
  · have same := primaryOf_setEntry present (e.touched (idx.nextSeq + 1)) rfl
    exact same ▸ ok.grouped

theorem seq_represented {idx : Index} (ok : Represented owner idx) : Represented owner idx.seq.2 :=
  ⟨⟨ok.mem.advance (Nat.le_succ _),ok.disk.advance (Nat.le_succ _),ok.grouped,ok.exact⟩,
    ok.rooted,ok.owned⟩

theorem lookup_index (digest128 : List UInt8 → Key) (idx : Index) (primary : Key) (target : String)
    (request : HeaderMap) : (idx.lookup digest128 primary target request).2 = idx ∨
      ∃ k e, idx.entries.lookup k = some e ∧ (idx.lookup digest128 primary target request).2 = idx.touch k := by
  unfold lookup
  cases idx.variantOf digest128 primary request with
  | none => exact .inl rfl
  | some variant =>
    obtain ⟨k,vary⟩ := variant
    cases present : idx.entries.lookup k with
    | none =>
      left
      simp only [present]
    | some e =>
      simp only [present]
      cases e.resident with
      | some value => exact .inr ⟨k,e,present,rfl⟩
      | none =>
        cases e.disk with
        | none => exact .inl rfl
        | some d => exact .inr ⟨k,e,present,rfl⟩

theorem addMemCopy_cases (idx : Index) (k : Key) (generation : Generation) (value : StoredResponse) :
    idx.addMemCopy k generation value = (idx.seq.2,false) ∨
      ∃ e d, idx.entries.lookup k = some e ∧ e.mem = none ∧ e.disk = some d ∧ d.generation = generation ∧
        idx.addMemCopy k generation value =
          ({idx.setEntry k {e with mem := some ⟨value,value.weight,idx.nextSeq + 1⟩} with
            nextSeq := idx.nextSeq + 1
            memLru := idx.memLru.insert (idx.nextSeq + 1) k
            memBytes := idx.memBytes + value.weight},true) := by
  unfold addMemCopy
  cases present : idx.entries.lookup k with
  | none =>
    left
    simp [seq,present]
  | some e =>
    cases mem : e.mem with
    | some m =>
      left
      simp [seq,present,mem]
    | none =>
      cases disk : e.disk with
      | none =>
        left
        simp [seq,present,mem,disk]
      | some d =>
        by_cases same : d.generation = generation
        · right
          exact ⟨e,d,rfl,mem,disk,same,by simp [seq,present,mem,disk,same,setEntry]⟩
        · left
          simp [seq,present,mem,disk,same]

theorem addMemCopy_represented {idx : Index} (ok : Represented owner idx) (k : Key)
    (generation : Generation) (value : StoredResponse) :
    Represented owner (idx.addMemCopy k generation value).1 := by
  rcases addMemCopy_cases idx k generation value with early | ⟨e,d,present,mem,disk,_,added⟩
  · rw [early]
    exact seq_represented ok
  · rw [added]
    have now := setEntry_lookup idx k (e := {e with mem := some ⟨value,value.weight,idx.nextSeq + 1⟩})
    have others := setEntry_others idx k {e with mem := some ⟨value,value.weight,idx.nextSeq + 1⟩}
    refine replaced ok ⟨?_,?_,?_,ok.exact⟩ now rfl (ok.owned k e present)
    · exact ok.mem.change k none (some (idx.nextSeq + 1,value.weight))
        (by simp [present,memSlot,mem]) (by simp [setEntry_lookup,memSlot]) others (Nat.le_succ _)
        (by simp)
    · have tier := ok.disk.advance (Nat.le_succ _)
      exact tier.keep k (by simp [setEntry_lookup,present,diskSlot]) others
    · have same := primaryOf_setEntry present
        {e with mem := some ⟨value,value.weight,idx.nextSeq + 1⟩} rfl
      exact same ▸ ok.grouped

/-! ### Stores -/

theorem stored_memSlot {old : Entry} (blank : old.mem = none) (inMemory onDisk : Bool)
    (value : StoredResponse) (s : Nat) (generation : Generation) :
    memSlot (old.stored inMemory onDisk value s generation) =
      if inMemory then some (s,value.weight) else none := by
  cases inMemory <;> cases onDisk <;> simp [Entry.stored,memSlot,blank]

theorem stored_disk (old : Entry) (inMemory onDisk : Bool) (value : StoredResponse) (s : Nat)
    (generation : Generation) :
    (old.stored inMemory onDisk value s generation).disk = if onDisk then old.disk else none := by
  cases inMemory <;> cases onDisk <;> rfl

theorem stored_primary (old : Entry) (inMemory onDisk : Bool) (value : StoredResponse) (s : Nat)
    (generation : Generation) : (old.stored inMemory onDisk value s generation).primary = old.primary := by
  cases inMemory <;> cases onDisk <;> rfl

def oldEntry (idx : Index) (primary k : Key) : Entry :=
  (idx.entries.lookup k).getD ⟨primary,none,none,none,none⟩

theorem dropMemCopy_absent {idx : Index} {k : Key} (absent : idx.entries.lookup k = none) :
    idx.dropMemCopy k = idx := by
  simp [dropMemCopy,absent]

theorem fileEntry_eq (idx : Index) (inMemory onDisk : Bool) (primary : Key) (names : List String)
    (k : Key) (value : StoredResponse) :
    let old := {idx.oldEntry primary k with mem := none}
    let entry := old.stored inMemory onDisk value (idx.nextSeq + 1) idx.generation.1
    let oldDisk := if onDisk then none else old.disk
    idx.fileEntry inMemory onDisk primary names k value =
      (unlistDisk {(idx.dropMemCopy k).setEntry k entry with
        primaries := nameVariant idx.primaries primary names k
        nextSeq := idx.nextSeq + 1
        nextGeneration := idx.generation.1
        memLru := relist (idx.dropMemCopy k).memLru k none (memSlot entry)
        memBytes := reweigh (idx.dropMemCopy k).memBytes none (memSlot entry)} oldDisk,
        entry,oldDisk,idx.generation.1) := by
  intro old entry oldDisk
  have slot : memSlot entry = if inMemory then some (idx.nextSeq + 1,value.weight) else none :=
    stored_memSlot rfl inMemory onDisk value _ _
  simp only [slot,entry]
  cases present : idx.entries.lookup k with
  | none =>
    cases inMemory <;>
      simp [fileEntry,dropMemCopy,present,seq,generation,setEntry,relist,reweigh,old,oldDisk,oldEntry]
  | some e =>
    cases held : e.mem with
    | none =>
      cases inMemory <;>
        simp [fileEntry,dropMemCopy,present,held,seq,generation,setEntry,relist,reweigh,old,oldDisk,
          oldEntry,unlistMem]
    | some m =>
      cases inMemory <;>
        simp [fileEntry,dropMemCopy,present,held,seq,generation,setEntry,relist,reweigh,old,oldDisk,
          oldEntry,unlistMem,freeMem] <;> rfl

theorem oldEntry_disk (idx : Index) (primary k : Key) :
    (idx.oldEntry primary k).disk = (idx.entries.lookup k).bind Entry.disk := by
  unfold oldEntry
  cases idx.entries.lookup k <;> rfl

theorem oldEntry_primary {idx : Index} (owned : Owned owner idx) {primary k : Key}
    (named : owner k = primary) : (idx.oldEntry primary k).primary = primary := by
  unfold oldEntry
  cases present : idx.entries.lookup k with
  | none => rfl
  | some e =>
    rw [← named]
    exact owned k e present

theorem nameVariant_variants (idx : Index) (primary k p : Key) (names : List String) :
    ((nameVariant idx.primaries primary names k).lookup p).map Primary.variants =
      if p = primary then some (withMember idx.variantsOf k primary) else idx.variantsOf p := by
  unfold nameVariant withMember variantsOf
  have same : ((idx.primaries.lookup primary).map Primary.variants).getD [] =
      ((idx.primaries.lookup primary).getD ⟨[],[]⟩).variants := by
    cases idx.primaries.lookup primary <;> rfl
  simp only [lookup_insert_if,same]
  split_ifs <;> rfl

theorem fileEntry_lookup (idx : Index) (inMemory onDisk : Bool) (primary : Key) (names : List String)
    (k : Key) (value : StoredResponse) (j : Key) :
    (idx.fileEntry inMemory onDisk primary names k value).1.entries.lookup j =
      if j = k then some (idx.fileEntry inMemory onDisk primary names k value).2.1
      else idx.entries.lookup j := by
  rw [fileEntry_eq]
  simp only
  rw [unlistDisk_eq _ k]
  simp only
  rw [setEntry_lookup]
  split_ifs with same
  · rfl
  · cases present : idx.entries.lookup k with
    | none => rw [dropMemCopy_absent present]
    | some e => rw [dropMemCopy_lookup present,if_neg same]

theorem dropMemCopy_keeps {idx : Index} (ok : Consistent idx) (k : Key) : Consistent (idx.dropMemCopy k) := by
  cases present : idx.entries.lookup k with
  | none => exact (dropMemCopy_absent present).symm ▸ ok
  | some e => exact dropMemCopy_consistent ok present

theorem dropMemCopy_self (idx : Index) (k : Key) : (idx.dropMemCopy k).entries.lookup k =
    (idx.entries.lookup k).map fun e => {e with mem := none} := by
  cases present : idx.entries.lookup k with
  | none => rw [dropMemCopy_absent present,present,Option.map_none]
  | some e => rw [dropMemCopy_lookup present,if_pos rfl,Option.map_some]

theorem dropMemCopy_rest (idx : Index) (k : Key) :
    (idx.dropMemCopy k).primaryOf = idx.primaryOf ∧ (idx.dropMemCopy k).primaries = idx.primaries ∧
      (idx.dropMemCopy k).nextSeq = idx.nextSeq ∧ (idx.dropMemCopy k).diskBytes = idx.diskBytes := by
  cases present : idx.entries.lookup k with
  | none => simp [dropMemCopy_absent present]
  | some e =>
    refine ⟨?_,?_⟩
    · have same := primaryOf_setEntry present {e with mem := none} rfl
      rw [dropMemCopy_eq present,unlistMem_eq _ k]
      exact same
    · rw [dropMemCopy_eq present,unlistMem_eq _ k]
      exact ⟨rfl,rfl,rfl⟩

theorem fileEntry_consistent {idx : Index} (ok : Represented owner idx) (inMemory onDisk : Bool)
    {primary k : Key} (named : owner k = primary) (names : List String) (value : StoredResponse) :
    Consistent (idx.fileEntry inMemory onDisk primary names k value).1 := by
  have base := dropMemCopy_keeps ok.toConsistent k
  have there := dropMemCopy_self idx k
  obtain ⟨primaries,listed,seqs,_⟩ := dropMemCopy_rest idx k
  have blank : ((idx.dropMemCopy k).entries.lookup k).bind memSlot = none := by
    rw [there]
    cases idx.entries.lookup k <;> rfl
  have slot : ((idx.dropMemCopy k).entries.lookup k).bind diskSlot =
      (idx.oldEntry primary k).disk.map fun d => (d.seq,d.size) := by
    rw [there,oldEntry]
    cases idx.entries.lookup k <;> rfl
  have enough : ((idx.oldEntry primary k).disk.any fun d =>
      decide ((idx.dropMemCopy k).diskBytes < d.size)) = false := by
    cases present : idx.entries.lookup k with
    | none => simp [oldEntry,present]
    | some e =>
      rw [present] at there
      simpa [oldEntry,present] using diskBytes_enough base.disk there
  rw [fileEntry_eq]
  simp only
  rw [unlistDisk_eq _ k]
  generalize written : Entry.stored _ inMemory onDisk value (idx.nextSeq + 1) idx.generation.1 = entry
  have others := setEntry_others (idx.dropMemCopy k) k entry
  refine ⟨?_,?_,?_,?_⟩
  · refine base.mem.change k none (memSlot entry) blank (by simp [setEntry_lookup]) others
      (by simp [seqs]) ?_
    intro s w held
    rw [← written,stored_memSlot rfl] at held
    split_ifs at held
    cases held
    simp [seqs]
  · have later : (idx.dropMemCopy k).nextSeq ≤ idx.nextSeq + 1 := by simp [seqs]
    have left : diskSlot entry =
        if onDisk then (idx.oldEntry primary k).disk.map fun d => (d.seq,d.size) else none := by
      rw [← written,diskSlot,stored_disk]
      cases onDisk <;> rfl
    cases onDisk with
    | true => exact (base.disk.advance later).keep k (by simp [setEntry_lookup,slot,left]) others
    | false =>
      exact base.disk.change k _ none slot (by simp [setEntry_lookup,left]) others later (by simp)
  · have free : ∀ d, idx.primaryOf k = some d → d = primary := by
      intro d belongs
      obtain ⟨e,present,rfl⟩ := Option.map_eq_some_iff.mp belongs
      rw [← named]
      exact ok.owned k e present
    have mine : entry.primary = primary := by
      rw [← written,stored_primary]
      exact oldEntry_primary ok.owned named
    convert ok.grouped.join free using 1
    · funext j
      unfold primaryOf
      rw [setEntry_lookup]
      split_ifs with same
      · rw [Option.map_some,mine]
      · exact congrFun primaries j
    · funext p
      exact nameVariant_variants idx primary k p names
  · cases onDisk <;> simp [setEntry,base.exact,enough]

theorem fileEntry_diskBytes (idx : Index) (inMemory onDisk : Bool) (primary : Key)
    (names : List String) (k : Key) (value : StoredResponse) :
    (idx.fileEntry inMemory onDisk primary names k value).1.diskBytes ≤ idx.diskBytes := by
  rw [fileEntry_eq]
  simp only
  rw [unlistDisk_eq _ k]
  simp only [reweigh,setEntry,(dropMemCopy_rest idx k).2.2.2]
  simp

theorem fileEntry_primary {idx : Index} (owned : Owned owner idx) (inMemory onDisk : Bool)
    {primary k : Key} (named : owner k = primary) (names : List String) (value : StoredResponse) :
    (idx.fileEntry inMemory onDisk primary names k value).2.1.primary = owner k := by
  rw [fileEntry_eq]
  simp only
  rw [stored_primary,named]
  exact oldEntry_primary owned named

theorem place_represented {idx : Index} (ok : Represented owner idx) (limits : Limits) (disk : Bool)
    {primary k : Key} (named : owner k = primary) (names : List String) (value : StoredResponse) :
    Represented owner (idx.place limits disk primary names k value).1 ∧
      (idx.place limits disk primary names k value).1.diskBytes ≤ idx.diskBytes := by
  unfold place
  generalize decide (value.weight ≤ limits.memEntryMax) = inMemory
  generalize (disk && decide (value.body.length ≤ limits.diskEntryMax)) = onDisk
  have filed := fileEntry_consistent ok inMemory onDisk named names value
  have now := fileEntry_lookup idx inMemory onDisk primary names k value
  have bytes := fileEntry_diskBytes idx inMemory onDisk primary names k value
  have owned := fileEntry_primary ok.owned inMemory onDisk named names value
  simp only
  split_ifs with rootless
  · refine ⟨removed ok (k := k) (remove_consistent filed k disk) ?_ ?_,?_⟩
    · intro j other
      rw [remove_lookup,if_neg other,now,if_neg other]
    · rw [remove_lookup,if_pos rfl]
    · exact (remove_bytes _ k disk).2.trans bytes
  · exact ⟨replaced ok filed now (Bool.eq_false_iff.mpr rootless) owned,bytes⟩

/-! ### Invalidations and finished writes -/

theorem removeAll_represented {idx : Index} (ok : Represented owner idx) (disk : Bool)
    (keys : List Key) : Represented owner (idx.removeAll disk keys).1 ∧
      (idx.removeAll disk keys).1.memBytes ≤ idx.memBytes ∧
      (idx.removeAll disk keys).1.diskBytes ≤ idx.diskBytes := by
  induction keys generalizing idx with
  | nil => exact ⟨ok,le_rfl,le_rfl⟩
  | cons k rest ih =>
    obtain ⟨ok',mem,dsk⟩ := ih (remove_represented ok k disk)
    obtain ⟨mem',dsk'⟩ := remove_bytes idx k disk
    exact ⟨ok',mem.trans mem',dsk.trans dsk'⟩

theorem commitWrite_represented {idx : Index} (ok : Represented owner idx) (k : Key)
    (generation : Generation) (size : Nat) : Represented owner (idx.commitWrite k generation size).1 ∧
      (idx.commitWrite k generation size).1.memBytes = idx.memBytes := by
  cases present : idx.entries.lookup k with
  | none =>
    have absent : (idx.commitWrite k generation size).1 = idx.seq.2 := by
      simp [commitWrite,seq,present]
    rw [absent]
    exact ⟨seq_represented ok,rfl⟩
  | some e =>
    have committed : (idx.commitWrite k generation size).1 =
        {idx.setEntry k {e with disk := some ⟨generation,size,idx.nextSeq + 1⟩, pendingWrite := none,
                                pendingValue := none} with
          nextSeq := idx.nextSeq + 1
          diskLru := relist idx.diskLru k (diskSlot e) (some (idx.nextSeq + 1,size))
          diskBytes := reweigh idx.diskBytes (diskSlot e) (some (idx.nextSeq + 1,size))
          dirty := true
          underflow := idx.underflow || (e.disk.any fun d => idx.diskBytes < d.size)} := by
      unfold diskSlot
      cases slot : e.disk with
      | none => simp [commitWrite,seq,present,slot,setEntry,relist,reweigh]
      | some d =>
        simp [commitWrite,seq,present,slot,setEntry,freeDisk,relist,reweigh]
        rfl
    rw [committed]
    refine ⟨replaced ok ⟨?_,?_,?_,?_⟩ (setEntry_lookup idx k (e := _))
      (by simp [Entry.rootless]) (ok.owned k e present),rfl⟩
    · exact (ok.mem.advance (Nat.le_succ _)).keep k (by simp [setEntry_lookup,present,memSlot])
        (setEntry_others idx k _)
    · exact ok.disk.change k (diskSlot e) (some (idx.nextSeq + 1,size)) (by simp [present])
        (by simp [setEntry_lookup,diskSlot]) (setEntry_others idx k _) (Nat.le_succ _) (by simp)
    · have same := primaryOf_setEntry present
        {e with disk := some ⟨generation,size,idx.nextSeq + 1⟩, pendingWrite := none,
                pendingValue := none} rfl
      exact same ▸ ok.grouped
    · simp [ok.exact,diskBytes_enough ok.disk present]

theorem abandonWrite_represented {idx : Index} (ok : Represented owner idx) (k : Key) :
    Represented owner (idx.abandonWrite k) ∧ (idx.abandonWrite k).memBytes ≤ idx.memBytes ∧
      (idx.abandonWrite k).diskBytes ≤ idx.diskBytes := by
  cases present : idx.entries.lookup k with
  | none =>
    simp only [abandonWrite,present]
    exact ⟨ok,le_rfl,le_rfl⟩
  | some e =>
    have others := setEntry_others idx k {e with pendingWrite := none, pendingValue := none}
    have now := setEntry_lookup idx k (e := {e with pendingWrite := none, pendingValue := none})
    have waiting : Consistent (idx.setEntry k {e with pendingWrite := none, pendingValue := none}) := by
      refine ⟨?_,?_,?_,ok.exact⟩
      · exact ok.mem.keep k (by simp [setEntry_lookup,present,memSlot]) others
      · exact ok.disk.keep k (by simp [setEntry_lookup,present,diskSlot]) others
      · have same := primaryOf_setEntry present {e with pendingWrite := none, pendingValue := none} rfl
        exact same ▸ ok.grouped
    simp only [abandonWrite,present]
    split_ifs with rootless
    · obtain ⟨mem,disk⟩ := remove_bytes
        (idx.setEntry k {e with pendingWrite := none, pendingValue := none}) k false
      refine ⟨removed ok (k := k) (remove_consistent waiting k false) ?_ ?_,mem,disk⟩
      · intro j other
        rw [remove_lookup,if_neg other,now,if_neg other]
      · rw [remove_lookup,if_pos rfl]
    · refine ⟨replaced ok waiting now ?_ (ok.owned k e present),le_rfl,le_rfl⟩
      simpa [Entry.rootless,Option.isSome_iff_ne_none] using rootless

/-! ### The persisted index -/

theorem new_represented (owner : Key → Key) : Represented owner new where
  mem := Recency.start memSlot
  disk := Recency.start diskSlot
  grouped := Grouping.start
  exact := rfl
  rooted := by simp [Rooted,new]
  owned := by simp [Owned,new]

theorem recordOf_vkey {idx : Index} {k : Key} {rec : IndexRecord} (found : idx.recordOf k = some rec) :
    rec.vkey = k ∧ ∃ e, idx.entries.lookup k = some e ∧ rec.primary = e.primary := by
  obtain ⟨e,present,record⟩ := Option.bind_eq_some_iff.mp found
  obtain ⟨d,_,rfl⟩ := Option.map_eq_some_iff.mp record
  exact ⟨rfl,e,present,rfl⟩

theorem snapshot_lists {idx : Index} (ok : Represented owner idx) : idx.snapshot.1.Lists owner := by
  have keys : idx.lruKeys.Nodup := by
    apply List.Nodup.filterMap _ (Finset.sort_nodup _ _)
    intro s s' k here here'
    obtain ⟨e,w,present,held⟩ := (ok.disk.ranked s k).mp here
    obtain ⟨e',w',present',held'⟩ := (ok.disk.ranked s' k).mp here'
    rw [present] at present'
    cases present'
    rw [held] at held'
    cases held'
    rfl
  refine ⟨?_,?_⟩
  · show ((idx.lruKeys.filterMap idx.recordOf).map IndexRecord.vkey).Nodup
    rw [List.map_filterMap]
    apply List.Nodup.filterMap _ keys
    intro k k' v here here'
    obtain ⟨rec,found,rfl⟩ := Option.map_eq_some_iff.mp here
    obtain ⟨rec',found',same⟩ := Option.map_eq_some_iff.mp here'
    rw [← (recordOf_vkey found).1,← (recordOf_vkey found').1,same]
  · intro rec inside
    obtain ⟨k,_,found⟩ := List.mem_filterMap.mp inside
    obtain ⟨rfl,e,present,same⟩ := recordOf_vkey found
    rw [same]
    exact ok.owned rec.vkey e present

theorem loadRecord_represented {idx : Index} (ok : Represented owner idx) {rec : IndexRecord}
    (absent : idx.entries.lookup rec.vkey = none) (owned : rec.primary = owner rec.vkey) :
    Represented owner (idx.loadRecord rec) := by
  have now : ∀ j, (idx.loadRecord rec).entries.lookup j = if j = rec.vkey then
      some ⟨rec.primary,none,some ⟨rec.generation,rec.size,idx.nextSeq + 1⟩,none,none⟩
      else idx.entries.lookup j :=
    fun j => setEntry_lookup idx rec.vkey j _
  have others : ∀ j, j ≠ rec.vkey →
      (idx.loadRecord rec).entries.lookup j = idx.entries.lookup j := by
    intro j other
    rw [now,if_neg other]
  refine replaced ok ⟨?_,?_,?_,ok.exact⟩ now rfl owned
  · exact (ok.mem.advance (Nat.le_succ _)).keep rec.vkey (by simp [now,absent,memSlot]) others
  · exact ok.disk.change rec.vkey none (some (idx.nextSeq + 1,rec.size)) (by simp [absent])
      (by simp [now,diskSlot]) others (Nat.le_succ _) (by simp [loadRecord,seq,setEntry])
  · have free : ∀ d, idx.primaryOf rec.vkey = some d → d = rec.primary := by
      simp [primaryOf,absent]
    convert ok.grouped.join free using 1
    · funext j
      unfold primaryOf
      rw [now]
      split_ifs <;> rfl
    · funext p
      have unlisted : rec.vkey ∉ (idx.variantsOf rec.primary).getD [] := by
        cases found : idx.variantsOf rec.primary with
        | none => simp
        | some l =>
          intro inside
          have belongs := (ok.grouped.exact rec.primary l found rec.vkey).mp inside
          simp [primaryOf,absent] at belongs
      have same : (idx.variantsOf rec.primary).getD [] =
          ((idx.primaries.lookup rec.primary).getD ⟨[],[]⟩).variants := by
        unfold variantsOf
        cases idx.primaries.lookup rec.primary <;> rfl
      have pushed : withMember idx.variantsOf rec.vkey rec.primary =
          ((idx.primaries.lookup rec.primary).getD ⟨[],[]⟩).variants ++ [rec.vkey] := by
        rw [withMember,if_neg (by simpa using unlisted),same]
      rw [pushed]
      show ((Finmap.insert _ _ idx.primaries).lookup p).map Primary.variants = _
      rw [lookup_insert_if]
      split_ifs <;> rfl

theorem loadRecords_represented {idx : Index} (ok : Represented owner idx) (empty : idx.memBytes = 0)
    {records : List IndexRecord} (nodup : (records.map IndexRecord.vkey).Nodup)
    (absent : ∀ rec ∈ records, idx.entries.lookup rec.vkey = none)
    (owned : ∀ rec ∈ records, rec.primary = owner rec.vkey) :
    Represented owner (records.foldl loadRecord idx) ∧ (records.foldl loadRecord idx).memBytes = 0 := by
  induction records generalizing idx with
  | nil => exact ⟨ok,empty⟩
  | cons rec rest ih =>
    obtain ⟨fresh,nodup'⟩ := List.nodup_cons.mp nodup
    have ok' := loadRecord_represented ok (absent rec List.mem_cons_self) (owned rec List.mem_cons_self)
    refine ih ok' empty nodup' ?_ fun r inside => owned r (List.mem_cons_of_mem _ inside)
    intro r inside
    have other : r.vkey ≠ rec.vkey := by
      intro same
      exact fresh (same ▸ List.mem_map_of_mem inside)
    have kept : (idx.loadRecord rec).entries.lookup r.vkey = idx.entries.lookup r.vkey :=
      setEntry_others idx rec.vkey _ r.vkey other
    rw [kept]
    exact absent r (List.mem_cons_of_mem _ inside)

theorem loadVary_represented {idx : Index} (ok : Represented owner idx) (empty : idx.memBytes = 0)
    (pair : Key × List String) : Represented owner (idx.loadVary pair) ∧ (idx.loadVary pair).memBytes = 0 := by
  unfold loadVary
  cases found : idx.primaries.lookup pair.1 with
  | none => exact ⟨ok,empty⟩
  | some info =>
    refine ⟨⟨⟨ok.mem,ok.disk,?_,ok.exact⟩,ok.rooted,ok.owned⟩,empty⟩
    have same : ({idx with primaries := idx.primaries.insert pair.1 {info with vary := pair.2}} :
        Index).variantsOf = idx.variantsOf := by
      funext p
      simp only [variantsOf,lookup_insert_if]
      split_ifs with here
      · rw [here,found]
        rfl
      · rfl
    exact same.symm ▸ ok.grouped

theorem load_represented {file : Option IndexSnapshot} (lists : ∀ s, file = some s → s.Lists owner) :
    Represented owner (load file) ∧ (load file).memBytes = 0 := by
  cases file with
  | none => exact ⟨new_represented owner,rfl⟩
  | some s =>
    obtain ⟨nodup,owned⟩ := lists s rfl
    obtain ⟨ok,empty⟩ := loadRecords_represented (new_represented owner) rfl nodup
      (fun _ _ => Finmap.lookup_empty _) owned
    show Represented owner (s.vary.foldl loadVary _) ∧ (s.vary.foldl loadVary _).memBytes = 0
    generalize s.entries.foldl loadRecord new = idx at ok empty
    generalize s.vary = pairs
    induction pairs generalizing idx with
    | nil => exact ⟨ok,empty⟩
    | cons pair rest ih =>
      obtain ⟨ok',empty'⟩ := loadVary_represented ok empty pair
      exact ih _ ok' empty'

end Index

end Sharko.Netstack.Cache
