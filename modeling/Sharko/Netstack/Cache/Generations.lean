import Sharko.Netstack.Cache.Backing

/-! The generations in use: until the counter wraps, a store draws one that
nothing in flight and no file to come or to go bears. -/

namespace Sharko.Netstack.Cache
open Library

namespace Index

@[simp] theorem unlistMem_nextGeneration (idx : Index) (m : Option MemSlot) :
    (idx.unlistMem m).nextGeneration = idx.nextGeneration := by
  cases m <;> rfl

@[simp] theorem unlistDisk_nextGeneration (idx : Index) (d : Option DiskSlot) :
    (idx.unlistDisk d).nextGeneration = idx.nextGeneration := by
  cases d <;> rfl

@[simp] theorem remove_nextGeneration (idx : Index) (k : Key) (disk : Bool) :
    (idx.remove k disk).1.nextGeneration = idx.nextGeneration := by
  cases present : idx.entries.lookup k with
  | none => rw [remove_absent present]
  | some e => simp [remove_eq present]

@[simp] theorem touch_nextGeneration (idx : Index) (k : Key) :
    (idx.touch k).nextGeneration = idx.nextGeneration := by
  unfold touch
  simp only [seq]
  split
  · rfl
  · split <;> split <;> rfl

theorem evictMemoryPass_nextGeneration (idx : Index) (disk : Bool) (s : Nat) (k : Key) :
    (evictMemoryPass idx disk s k).1.nextGeneration = idx.nextGeneration := by
  unfold evictMemoryPass
  cases idx.entries.lookup k with
  | none => rfl
  | some e =>
    cases held : e.mem with
    | none => simp [held]
    | some m =>
      simp only [held]
      split_ifs
      · rfl
      · simp [freeMem,setEntry]
      · rfl

@[simp] theorem evictMemory_nextGeneration (idx : Index) (limits : Limits) (disk : Bool)
    (deletes : List Path) :
    (idx.evictMemory limits disk deletes).1.nextGeneration = idx.nextGeneration := by
  unfold evictMemory
  generalize idx.memLru.keys.card = fuel
  induction fuel generalizing idx deletes with
  | zero => rfl
  | succ fuel ih =>
    unfold evictMemoryLoop
    split_ifs
    · rfl
    · cases FiniteMap.popFirst idx.memLru with
      | none => rfl
      | some popped =>
        obtain ⟨⟨s,k⟩,rest⟩ := popped
        exact (ih _ _).trans (evictMemoryPass_nextGeneration {idx with memLru := rest} disk s k)

theorem evictDiskPass_nextGeneration (idx : Index) (s : Nat) (k : Key) :
    (evictDiskPass idx s k).1.nextGeneration = idx.nextGeneration := by
  have taken : ∀ e, (idx.takeDisk s k e).1.nextGeneration = idx.nextGeneration := by
    intro e
    unfold takeDisk
    cases e.disk with
    | none => rfl
    | some d =>
      simp only
      split_ifs <;> rfl
  unfold evictDiskPass
  cases idx.entries.lookup k with
  | none => rfl
  | some e =>
    simp only
    split_ifs
    · rw [remove_nextGeneration]
      exact taken e
    · exact taken e

theorem evictDiskLoop_nextGeneration (target fuel : Nat) (idx : Index) (deletes : List Path) :
    (evictDiskLoop target fuel idx deletes).1.nextGeneration = idx.nextGeneration := by
  induction fuel generalizing idx deletes with
  | zero => rfl
  | succ fuel ih =>
    unfold evictDiskLoop
    split_ifs
    · rfl
    · cases FiniteMap.popFirst idx.diskLru with
      | none => rfl
      | some popped =>
        obtain ⟨⟨s,k⟩,rest⟩ := popped
        exact (ih _ _).trans (evictDiskPass_nextGeneration {idx with diskLru := rest} s k)

@[simp] theorem evictDisk_nextGeneration (idx : Index) (limits : Limits) (deletes : List Path) :
    (idx.evictDisk limits deletes).1.nextGeneration = idx.nextGeneration := by
  unfold evictDisk
  split_ifs
  · rfl
  · exact evictDiskLoop_nextGeneration _ _ idx deletes

@[simp] theorem promote_nextGeneration (idx : Index) (limits : Limits) (disk : Bool) (k : Key)
    (g : Generation) (value : StoredResponse) :
    (idx.promote limits disk k g value).1.nextGeneration = idx.nextGeneration := by
  unfold promote
  split_ifs
  · rfl
  · rcases addMemCopy_cases idx k g value with early | ⟨e,d,_,_,_,_,added⟩
    · rw [early]
      rfl
    · rw [added]
      exact evictMemory_nextGeneration _ limits disk []

@[simp] theorem removeAll_nextGeneration (idx : Index) (disk : Bool) (keys : List Key) :
    (idx.removeAll disk keys).1.nextGeneration = idx.nextGeneration := by
  induction keys generalizing idx with
  | nil => rfl
  | cons k rest ih => exact (ih (idx.remove k disk).1).trans (remove_nextGeneration idx k disk)

theorem invalidate_nextGeneration (digest128 : List UInt8 → Key) (idx : Index) (url : Url) (disk : Bool) :
    (Index.invalidate digest128 idx url disk).1.nextGeneration = idx.nextGeneration :=
  (removeAll_nextGeneration _ disk _).trans (removeAll_nextGeneration idx disk _)

theorem dropUnreadable_nextGeneration (idx : Index) (k : Key) (g : Generation) :
    (idx.dropUnreadable k g).1.nextGeneration = idx.nextGeneration := by
  unfold dropUnreadable
  simp only
  split_ifs
  · exact remove_nextGeneration idx k true
  · rfl

theorem lookup_nextGeneration (digest128 : List UInt8 → Key) (idx : Index) (primary : Key)
    (target : String) (request : HeaderMap) :
    (idx.lookup digest128 primary target request).2.nextGeneration = idx.nextGeneration := by
  rcases lookup_index digest128 idx primary target request with same | ⟨k,e,_,touched⟩
  · rw [same]
  · rw [touched,touch_nextGeneration]

theorem onWriteDone_nextGeneration (idx : Index) (limits : Limits) (k : Key) (g : Generation)
    (result : Option Nat) : (idx.onWriteDone limits k g result).1.nextGeneration = idx.nextGeneration := by
  have committed : ∀ size, (idx.commitWrite k g size).1.nextGeneration = idx.nextGeneration := by
    intro size
    unfold commitWrite
    cases present : idx.entries.lookup k with
    | none => simp [seq,present]
    | some e => cases slot : e.disk <;> simp [seq,present,slot,setEntry,freeDisk]
  have abandoned : (idx.abandonWrite k).nextGeneration = idx.nextGeneration := by
    unfold abandonWrite
    cases idx.entries.lookup k with
    | none => rfl
    | some e =>
      simp only
      split_ifs
      · exact remove_nextGeneration _ k false
      · rfl
  unfold onWriteDone
  cases idx.current k g <;> cases result <;> simp [committed,abandoned]

theorem store_nextGeneration (idx : Index) (limits : Limits) (disk : Bool) (primary : Key)
    (names : List String) (k : Key) (value : StoredResponse) :
    (idx.store limits disk primary names k value).1.nextGeneration = idx.generation.1 := by
  have placed : (idx.place limits disk primary names k value).1.nextGeneration = idx.generation.1 := by
    unfold place
    simp only [fileEntry_eq]
    split_ifs <;> simp
  exact (evictMemory_nextGeneration _ limits disk _).trans placed

theorem load_generations {file : Option IndexSnapshot} {k : Key} {e : Entry} {d : DiskSlot}
    (present : (load file).entries.lookup k = some e) (slot : e.disk = some d) :
    d.generation ≤ (load file).nextGeneration := by
  have records : ∀ (records : List IndexRecord) (idx : Index),
      (∀ k e d, idx.entries.lookup k = some e → e.disk = some d → d.generation ≤ idx.nextGeneration) →
      ∀ k e d, (records.foldl loadRecord idx).entries.lookup k = some e → e.disk = some d →
        d.generation ≤ (records.foldl loadRecord idx).nextGeneration := by
    intro records
    induction records with
    | nil => exact fun idx before => before
    | cons rec rest ih =>
      intro idx before
      apply ih
      intro k e d here held
      have loaded : (idx.loadRecord rec).entries.lookup k = if k = rec.vkey then
          some ⟨rec.primary,none,some ⟨rec.generation,rec.size,idx.nextSeq + 1⟩,none,none⟩
          else idx.entries.lookup k := setEntry_lookup idx rec.vkey k _
      have next : (idx.loadRecord rec).nextGeneration = max idx.nextGeneration rec.generation := rfl
      rw [loaded] at here
      rw [next]
      split_ifs at here
      · cases here
        cases held
        exact le_max_right _ _
      · exact (before k e d here held).trans (le_max_left _ _)
  have named : ∀ (pairs : List (Key × List String)) (idx : Index),
      (pairs.foldl loadVary idx).entries = idx.entries ∧
        (pairs.foldl loadVary idx).nextGeneration = idx.nextGeneration := by
    intro pairs
    induction pairs with
    | nil => exact fun idx => ⟨rfl,rfl⟩
    | cons pair rest ih =>
      intro idx
      rw [List.foldl_cons,(ih _).1,(ih _).2]
      unfold loadVary
      cases idx.primaries.lookup pair.1 <;> exact ⟨rfl,rfl⟩
  cases file with
  | none => simp [load,new] at present
  | some s =>
    have same := named s.vary (s.entries.foldl loadRecord new)
    have entries : (load (some s)).entries = (s.entries.foldl loadRecord new).entries := same.1
    have next : (load (some s)).nextGeneration = (s.entries.foldl loadRecord new).nextGeneration := same.2
    rw [entries] at present
    rw [next]
    exact records s.entries new (by simp [new]) k e d present slot

end Index

structure Drawn (s : System) : Prop where
  pending : ∀ k e g, s.index.entries.lookup k = some e → e.pendingWrite = some g →
    g ≤ s.index.nextGeneration
  slot : ∀ k e d, s.index.entries.lookup k = some e → e.disk = some d →
    d.generation ≤ s.index.nextGeneration
  reads : ∀ r ∈ s.reads, r.generation ≤ s.index.nextGeneration
  writes : ∀ p, writesOf p s.jobs ≠ [] → p.2 ≤ s.index.nextGeneration
  writer : ∀ k g v result, s.writer = .wrote k g v result → g ≤ s.index.nextGeneration
  doomed : ∀ p, Doomed s p → p.2 ≤ s.index.nextGeneration

def System.Unwrapped (s : System) : Prop := s.index.nextGeneration + 1 < 2 ^ 32

theorem generation_unwrapped {s : System} (unwrapped : s.Unwrapped) :
    s.index.generation.1 = s.index.nextGeneration + 1 := by
  unfold Index.generation
  unfold System.Unwrapped at unwrapped
  simp only
  rw [Nat.mod_eq_of_lt unwrapped]
  exact Nat.max_eq_left (Nat.succ_le_succ (Nat.zero_le _))

theorem Drawn.unused {s : System} (drawn : Drawn s) (unwrapped : s.Unwrapped) (k : Key) :
    s.Unused k s.index.generation.1 := by
  rw [generation_unwrapped unwrapped]
  refine ⟨⟨?_,?_,?_⟩,?_,?_⟩
  · by_contra issued
    exact Nat.not_succ_le_self _ (drawn.writes (k,_) issued)
  · intro v result wrote
    exact Nat.not_succ_le_self _ (drawn.writer k _ v result wrote)
  · intro r inside _ same
    exact Nat.ne_of_lt (Nat.lt_succ_of_le (drawn.reads r inside)) same
  · intro doomed
    exact Nat.not_succ_le_self _ (drawn.doomed (k,_) doomed)
  · intro e d here held same
    exact Nat.ne_of_lt (Nat.lt_succ_of_le (drawn.slot k e d here held)) same

section Steps
variable {digest128 : List UInt8 → Key} {s s' : System}

theorem Issued.drawn {deletes : List Path} (issued : Issued s s' deletes) (ok : Drawn s)
    (next : s'.index.nextGeneration = s.index.nextGeneration)
    (entries : ∀ k e', s'.index.entries.lookup k = some e' →
      ∃ e m, s.index.entries.lookup k = some e ∧ e'.Within {e with mem := m})
    (deleted : ∀ p ∈ deletes, p.2 ≤ s.index.nextGeneration)
    (reads : ∀ r ∈ s'.reads, r.generation ≤ s.index.nextGeneration) : Drawn s' := by
  refine ⟨?_,?_,?_,?_,?_,?_⟩
  · intro k e' g here pending
    obtain ⟨e,m,before,smaller⟩ := entries k e' here
    rw [next]
    exact ok.pending k e g before (smaller.pendingWrite ▸ pending)
  · intro k e' d' here held
    obtain ⟨e,m,before,smaller⟩ := entries k e' here
    obtain ⟨d,was,same⟩ := smaller.disk d' held
    rw [next,← same]
    exact ok.slot k e d before was
  · rw [next]
    exact reads
  · intro p written
    rw [next]
    refine ok.writes p fun none => written ?_
    have same := issued.jobs p
    rw [none] at same
    exact List.perm_nil.mp same
  · intro k g v result wrote
    rw [issued.same.1] at wrote
    rw [next]
    exact ok.writer k g v result wrote
  · intro p doomed
    rw [next]
    rcases issued.doomed p doomed with before | given
    · exact ok.doomed p before
    · exact deleted p given

theorem Drawn.within (entries : FiniteMap Key Entry) {entries' : FiniteMap Key Entry}
    (smaller : Within entries' entries) : ∀ k e', entries'.lookup k = some e' →
      ∃ e m, entries.lookup k = some e ∧ e'.Within {e with mem := m} := by
  intro k e' here
  obtain ⟨e,before,within⟩ := smaller k e' here
  exact ⟨e,e.mem,before,within⟩

theorem Drawn.released (ok : Drawn s) {entries : FiniteMap Key Entry} {deletes : List Path}
    (released : Released s.index.entries entries deletes) : ∀ p ∈ deletes, p.2 ≤ s.index.nextGeneration := by
  intro p inside
  obtain ⟨⟨e,d,before,held,named⟩,_⟩ := released p inside
  rw [← named]
  exact ok.slot p.1 e d before held

theorem Drawn.took (ok : Drawn s) (index : Index) (deletes : List Path) {reads : List Read}
    (fewer : ∀ r ∈ reads, r ∈ s.reads) (log : List Event) (next : index.nextGeneration = s.index.nextGeneration)
    (smaller : Within index.entries s.index.entries)
    (released : Released s.index.entries index.entries deletes) : Drawn {s with
      index := index
      outbox := s.outbox ++ [System.deleteJobs deletes]
      reads := reads
      log := log} := by
  have issued := issued_jobs s index reads log fun p => writesOf_deleteJobs p deletes
  refine issued.drawn ok next (Drawn.within _ smaller) ?_ fun r inside => ok.reads r (fewer r inside)
  rw [deletesOf_deleteJobs]
  exact ok.released released

theorem lookup_drawn (ok : Drawn s) (url : Url) (credentials : Bool) (request : HeaderMap) :
    Drawn (s.lookup digest128 url credentials request) := by
  have still : ∀ (index : Index) (log : List Event),
      index.nextGeneration = s.index.nextGeneration → Within index.entries s.index.entries →
      Drawn {s with index := index, log := log} := by
    intro index log next smaller
    exact (issued_index s index s.reads log).drawn ok next (Drawn.within _ smaller) (by simp) ok.reads
  unfold System.lookup
  cases found : s.index.variantOf digest128 (primaryKey digest128 url credentials) request with
  | none =>
    simp only [found]
    exact still s.index _ rfl (Within.refl _)
  | some variant =>
    obtain ⟨k,vary⟩ := variant
    have smaller := Index.lookup_within digest128 s.index (primaryKey digest128 url credentials)
      url.target request
    have next := Index.lookup_nextGeneration digest128 s.index (primaryKey digest128 url credentials)
      url.target request
    simp only [found]
    rcases Index.lookup_decision found url.target with
      miss | ⟨e,value,present,resident,target,values,hit⟩ | ⟨e,d,present,absent,held,read⟩
    · rw [miss]
      exact still _ _ next smaller
    · rw [hit]
      exact still _ _ next smaller
    · rw [read]
      simp only
      split_ifs
      · refine (issued_index s _ (s.reads ++ [⟨s.log.length,url.target,k,vary,d.generation,none⟩])
          _).drawn ok next (Drawn.within _ smaller) (by simp) ?_
        intro r inside
        rcases List.mem_append.mp inside with before | new
        · exact ok.reads r before
        · cases List.mem_singleton.mp new
          exact ok.slot k e d present held
      · exact still _ _ next smaller

theorem resume_drawn (ok : Drawn s) (r : Read) (result : ReadResult) (id : Nat) :
    Drawn ({s with reads := s.reads.filter fun r => r.id != id}.resume r result) := by
  have fewer : ∀ r ∈ s.reads.filter fun r => r.id != id, r ∈ s.reads :=
    fun r inside => List.mem_of_mem_filter inside
  have missed : Drawn ({s with reads := s.reads.filter fun r => r.id != id}.answer r.id none) :=
    (issued_index s s.index _ _).drawn ok rfl (Drawn.within _ (Within.refl _)) (by simp)
      fun r inside => ok.reads r (fewer r inside)
  unfold System.resume
  cases result with
  | stored v =>
    simp only
    split_ifs
    · refine (issued_jobs s _ _ _ fun p => writesOf_deleteJobs p _).drawn ok
        (Index.promote_nextGeneration ..) ?_ ?_ fun r inside => ok.reads r (fewer r inside)
      · intro k e' here
        rcases Index.promote_entry here with ⟨e,before,smaller⟩ | ⟨rfl,_,e,d,n,present,_,_,_,smaller⟩
        · exact ⟨e,e.mem,before,smaller⟩
        · exact ⟨e,some ⟨v,v.weight,n⟩,present,smaller⟩
      · rw [deletesOf_deleteJobs,Index.promote_deletes]
        intro p inside
        cases inside
    · exact missed
  | unreadable =>
    exact ok.took _ _ fewer _ (Index.dropUnreadable_nextGeneration s.index r.vkey r.generation)
      (Index.dropUnreadable_within s.index r.vkey r.generation)
      (Index.dropUnreadable_released s.index r.vkey r.generation)
  | failed => exact missed

theorem store_drawn (ok : Drawn s) (url : Url) (credentials : Bool) (request : HeaderMap)
    (names : List String) (response : StoredResponse) (unwrapped : s.Unwrapped) :
    Drawn (s.store digest128 url credentials request names response) := by
  have next : (s.store digest128 url credentials request names response).index.nextGeneration =
      s.index.nextGeneration + 1 :=
    (Index.store_nextGeneration ..).trans (generation_unwrapped unwrapped)
  have deleted : ∀ p ∈ (s.index.store s.limits s.disk (primaryKey digest128 url credentials) names
      (storeKey digest128 url credentials request names) (response.filed url names request)).2.1,
      p.2 ≤ s.index.nextGeneration := by
    intro p given
    rw [Index.store_deletes] at given
    exact ok.released (Index.place_released _ _ _ _ _ _ _) p given
  refine ⟨?_,?_,?_,?_,?_,?_⟩
  · intro k e' g here pending
    rw [next]
    have change := Index.store_entry here
    split_ifs at change with own
    · rw [change.pendingWrite,(Index.placed_waiting _ _ _ _ _ _).1] at pending
      split_ifs at pending
      cases pending
      exact (generation_unwrapped unwrapped).le
    · obtain ⟨e,before,smaller⟩ := change
      exact (ok.pending k e g before (smaller.pendingWrite ▸ pending)).trans (Nat.le_succ _)
  · intro k e' d' here held
    rw [next]
    have change := Index.store_entry here
    split_ifs at change with own
    · obtain ⟨d,was,same⟩ := change.disk d' held
      rw [(Index.placed_waiting _ _ _ _ _ _).2.2] at was
      split_ifs at was
      unfold Index.oldEntry at was
      cases present : s.index.entries.lookup (storeKey digest128 url credentials request names) with
      | none => simp [present] at was
      | some e =>
        rw [present] at was
        rw [← same]
        exact (ok.slot _ e d present was).trans (Nat.le_succ _)
    · obtain ⟨e,before,smaller⟩ := change
      obtain ⟨d,was,same⟩ := smaller.disk d' held
      rw [← same]
      exact (ok.slot k e d before was).trans (Nat.le_succ _)
  · intro r inside
    rw [next]
    exact (ok.reads r inside).trans (Nat.le_succ _)
  · intro p written
    rw [next]
    by_cases own : p = (storeKey digest128 url credentials request names,s.index.generation.1)
    · rw [own]
      exact (generation_unwrapped unwrapped).le
    · refine (ok.writes p fun none => written ?_).trans (Nat.le_succ _)
      have kept := store_elsewhere digest128 url credentials request names response s own
      rw [none] at kept
      exact List.perm_nil.mp kept
  · intro k g v result wrote
    rw [next]
    exact (ok.writer k g v result wrote).trans (Nat.le_succ _)
  · intro p doomed
    rw [next]
    rcases store_doomed digest128 url credentials request names response s doomed with before | given
    · exact (ok.doomed p before).trans (Nat.le_succ _)
    · exact (deleted p given).trans (Nat.le_succ _)

theorem write_drawn (ok : Drawn s) {k : Key} {g : Generation} {v : StoredResponse} {rest : List Job}
    (head : s.queue = .write k g v :: rest) (metaLen : Option Nat) :
    Drawn (s.performWrite k g v rest metaLen) := by
  refine ⟨ok.pending,ok.slot,ok.reads,?_,?_,?_⟩
  · intro p written
    apply ok.writes p
    intro none
    have issued := performWrite_jobs head metaLen p
    rw [none] at issued
    exact written (List.append_eq_nil_iff.mp (List.nil_perm.mp issued)).2
  · intro k' g' v' result wrote
    cases wrote
    refine ok.writes (k,g) ?_
    intro none
    have issued := performWrite_jobs head metaLen (k,g)
    rw [none,if_pos rfl] at issued
    simpa using issued.length_eq
  · exact fun p doomed => ok.doomed p (performWrite_doomed head doomed)

theorem done_drawn (ok : Drawn s) {k : Key} {g : Generation} {v : StoredResponse} {result : Option Nat}
    (wrote : s.writer = .wrote k g v result) : Drawn (s.finishWrite k g result) := by
  have next : (s.finishWrite k g result).index.nextGeneration = s.index.nextGeneration :=
    Index.onWriteDone_nextGeneration ..
  have written := ok.writer k g v result wrote
  refine ⟨?_,?_,?_,?_,?_,?_⟩
  · intro j e' g' here pending
    rw [next]
    obtain ⟨e,before,change⟩ := Index.onWriteDone_entry here
    split_ifs at change with own
    · obtain ⟨n,smaller⟩ := change
      rw [smaller.pendingWrite] at pending
      cases pending
    · exact ok.pending j e g' before (change.pendingWrite ▸ pending)
  · intro j e' d' here held
    rw [next]
    obtain ⟨e,before,change⟩ := Index.onWriteDone_entry here
    split_ifs at change with own
    · obtain ⟨n,smaller⟩ := change
      obtain ⟨d,was,same⟩ := smaller.disk d' held
      rw [← same]
      cases result with
      | none => exact ok.slot j e d before was
      | some size =>
        cases was
        exact written
    · obtain ⟨d,was,same⟩ := change.disk d' held
      rw [← same]
      exact ok.slot j e d before was
  · rw [next]
    exact ok.reads
  · rw [next]
    exact ok.writes
  · intro k' g' v' result' equal
    cases equal
  · intro p doomed
    rw [next]
    rcases finishWrite_doomed doomed with before | given
    · exact ok.doomed p before
    · rw [Index.onWriteDone_deletes] at given
      split_ifs at given with current
      · obtain ⟨e,present,pending⟩ := (Index.current_iff s.index k g).mp current
        cases result with
        | none => cases given
        | some size =>
          obtain ⟨files,grown,released⟩ := Index.evictDisk_released (s.index.commitWrite k g size).1
            s.limits (s.index.commitWrite k g size).2
          have given' : p ∈ (s.index.commitWrite k g size).2 ++ files := grown ▸ given
          rcases List.mem_append.mp given' with old | evicted
          · rw [Index.commitWrite_deletes present] at old
            obtain ⟨d,held,rfl⟩ := Option.map_eq_some_iff.mp (Option.mem_toList.mp old)
            exact ok.slot k e d present held
          · obtain ⟨⟨e₁,d₁,was,held,named⟩,_⟩ := released p evicted
            rw [Index.commitWrite_lookup present] at was
            rw [← named]
            split_ifs at was
            · cases was
              cases held
              exact written
            · exact ok.slot p.1 e₁ d₁ was held
      · cases result with
        | none => cases given
        | some size =>
          cases List.mem_singleton.mp given
          exact written

theorem shuffled_drawn (ok : Drawn s) (shuffled : Shuffled s s') : Drawn s' := by
  refine ⟨?_,?_,?_,?_,?_,?_⟩
  · rw [shuffled.index]
    exact ok.pending
  · rw [shuffled.index]
    exact ok.slot
  · rw [shuffled.index,shuffled.reads]
    exact ok.reads
  · intro p written
    rw [shuffled.index]
    refine ok.writes p fun none => written ?_
    have same := shuffled.jobs p
    rw [none] at same
    exact List.perm_nil.mp same
  · intro k g v result wrote
    rw [shuffled.index]
    exact ok.writer k g v result ((shuffled.writer k g v result).mp wrote)
  · intro p doomed
    rw [shuffled.index]
    exact ok.doomed p (shuffled.doomed p doomed)

theorem step_drawn (ok : Drawn s) {a : Action} (taken : s.step digest128 a = some s')
    (unwrapped : ∀ url credentials request names response,
      a = .store url credentials request names response → s.Unwrapped) : Drawn s' := by
  cases a with
  | lookup url credentials request =>
    cases taken
    exact lookup_drawn ok url credentials request
  | read id outcome =>
    cases taken
    refine ⟨ok.pending,ok.slot,?_,ok.writes,ok.writer,ok.doomed⟩
    intro r' inside
    obtain ⟨r,before,rfl⟩ := List.mem_map.mp inside
    unfold System.finishRead
    split_ifs
    · exact ok.reads r before
    · exact ok.reads r before
  | resume id =>
    cases found : s.reads.find? fun r => r.id == id with
    | none => simp [System.step,found] at taken
    | some r =>
      simp only [System.step,found] at taken
      obtain ⟨result,_,rfl⟩ := Option.map_eq_some_iff.mp taken
      exact resume_drawn ok r result id
  | store url credentials request names response =>
    cases taken
    exact store_drawn ok url credentials request names response (unwrapped _ _ _ _ _ rfl)
  | invalidate url =>
    cases taken
    exact ok.took _ _ (fun r inside => inside) _ (Index.invalidate_nextGeneration ..)
      (Index.invalidate_within digest128 s.index url s.disk)
      (Index.invalidate_released digest128 s.index url s.disk)
  | saveIndex =>
    simp only [System.step] at taken
    split_ifs at taken
    · cases taken
      have issued := issued_jobs s s.index.snapshot.2 s.reads s.log fun p =>
        (rfl : writesOf p [.saveIndex s.index.snapshot.1] = [])
      exact issued.drawn ok rfl (Drawn.within _ (Within.refl _)) (by simp [deletesOf]) ok.reads
    · cases taken
      exact ok
  | write metaLen =>
    simp only [System.step] at taken
    split at taken
    · rename_i k g v rest idle clean head
      cases taken
      exact write_drawn ok head metaLen
    · cases taken
  | done =>
    simp only [System.step] at taken
    split at taken
    · rename_i k g v result wrote
      cases taken
      exact done_drawn ok wrote
    · cases taken
  | send _ => exact shuffled_drawn ok (channel_shuffled taken trivial)
  | cleanup _ => exact shuffled_drawn ok (channel_shuffled taken trivial)
  | beginDelete => exact shuffled_drawn ok (channel_shuffled taken trivial)
  | delete _ => exact shuffled_drawn ok (channel_shuffled taken trivial)
  | persist _ => exact shuffled_drawn ok (channel_shuffled taken trivial)

theorem opened_drawn (dir : Bool) (memoryBudget diskBudget : Nat) (saved : Option IndexSnapshot)
    (files : Path → Option EntryFile) : Drawn (System.opened dir memoryBudget diskBudget saved files) := by
  cases dir with
  | false =>
    refine ⟨?_,?_,by simp [System.opened],by simp [System.opened,System.jobs,writesOf],?_,?_⟩
    · intro k e g here
      simp [System.opened,Index.new] at here
    · intro k e d here
      simp [System.opened,Index.new] at here
    · intro k g v result equal
      cases equal
    · rintro p (inside | ⟨paths,equal,_⟩)
      · cases inside
      · cases equal
  | true =>
    have smaller := Index.evictDisk_within (Index.load (Index.loadIndex saved))
      (Limits.ofBudgets memoryBudget diskBudget) []
    obtain ⟨given,grown,released⟩ := Index.evictDisk_released (Index.load (Index.loadIndex saved))
      (Limits.ofBudgets memoryBudget diskBudget) []
    rw [List.nil_append] at grown
    have next : (System.opened true memoryBudget diskBudget saved files).index.nextGeneration =
        (Index.load (Index.loadIndex saved)).nextGeneration := Index.evictDisk_nextGeneration ..
    refine ⟨?_,?_,by simp [System.opened],?_,?_,?_⟩
    · intro k e g here pending
      obtain ⟨e₀,before,within⟩ := smaller k e here
      rw [within.pendingWrite,(Index.load_idle before).2.1] at pending
      cases pending
    · intro k e d here held
      obtain ⟨e₀,before,within⟩ := smaller k e here
      obtain ⟨d₀,was,equal⟩ := within.disk d held
      rw [next,← equal]
      exact Index.load_generations before was
    · intro p written
      exact absurd (writesOf_deleteJobs p _) written
    · intro k g v result equal
      cases equal
    · rintro p (inside | ⟨paths,equal,_⟩)
      · have inside' : p ∈ deletesOf (System.deleteJobs ((Index.load (Index.loadIndex saved)).evictDisk
            (Limits.ofBudgets memoryBudget diskBudget) []).2) := inside
        rw [deletesOf_deleteJobs,grown] at inside'
        obtain ⟨⟨e,d,before,held,named⟩,_⟩ := released p inside'
        rw [next,← named]
        exact Index.load_generations before held
      · cases equal

end Steps

end Sharko.Netstack.Cache
