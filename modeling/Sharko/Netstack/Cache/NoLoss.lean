import Sharko.Netstack.Cache.Backing

/-! Responses the cache holds, what may make it lose one, and the runs in which
nothing else does. -/

namespace Sharko.Netstack.Cache
open Library

def Entry.yields (files : Path → Option EntryFile) (k : Key) (e : Entry) : Option StoredResponse :=
  e.resident.or (e.disk.bind fun d => (files (k,d.generation)).map readEntry)

def Holds (entries : FiniteMap Key Entry) (files : Path → Option EntryFile) (k : Key)
    (v : StoredResponse) : Prop :=
  ∃ w, (entries.lookup k).bind (Entry.yields files k) = some w ∧ SameResponse v w

namespace System

def Retrievable (s : System) (k : Key) (v : StoredResponse) : Prop :=
  Holds s.index.entries s.files k v

/-- The section of the action evicts from this index, which is over a budget. -/
inductive Evicts (digest128 : List UInt8 → Key) (s : System) : Action → Index → Prop
  | store (url : Url) (credentials : Bool) (request : HeaderMap) (names : List String)
      (response : StoredResponse) (idx : Index)
      (placed : idx = (s.index.place s.limits s.disk (primaryKey digest128 url credentials) names
        (storeKey digest128 url credentials request names) (response.filed url names request)).1)
      (crowded : s.limits.memBudget < idx.memBytes) :
      Evicts digest128 s (.store url credentials request names response) idx
  | promote (r : Read) (response : StoredResponse) (idx : Index) (inside : r ∈ s.reads)
      (read : r.result = some (.stored response))
      (added : idx = (s.index.addMemCopy r.vkey r.generation response).1)
      (crowded : s.limits.memBudget < idx.memBytes) : Evicts digest128 s (.resume r.id) idx
  | commit (k : Key) (g : Generation) (v : StoredResponse) (size : Nat) (idx : Index)
      (wrote : s.writer = .wrote k g v (some size)) (committed : idx = (s.index.commitWrite k g size).1)
      (crowded : s.limits.diskBudget < idx.diskBytes) : Evicts digest128 s .done idx

/-- What may make a response of a variant unretrievable. -/
inductive Cause (digest128 : List UInt8 → Key) (s : System) (k : Key) (v : StoredResponse) : Action → Prop
  | newer (url : Url) (credentials : Bool) (request : HeaderMap) (names : List String)
      (response : StoredResponse) (same : storeKey digest128 url credentials request names = k) :
      Cause digest128 s k v (.store url credentials request names response)
  | invalidated (url : Url) (credentials : Bool) (p : Primary)
      (named : s.index.primaries.lookup (primaryKey digest128 url credentials) = some p)
      (variant : k ∈ p.variants) : Cause digest128 s k v (.invalidate url)
  | unwritten (g : Generation) (w : StoredResponse) (failed : s.writer = .wrote k g w none)
      (current : s.index.current k g = true) (same : SameResponse v w) : Cause digest128 s k v .done
  | evicted (a : Action) (idx : Index) (evicts : Evicts digest128 s a idx)
      (held : Holds idx.entries s.files k v) : Cause digest128 s k v a

/-- A step loses a retrievable response for one of the causes only, and a store
puts its response into the index unless it fits no tier or is evicted at once. -/
def KeepsStored (digest128 : List UInt8 → Key) (s : System) (a : Action) (s' : System) : Prop :=
  (∀ k v, s.Retrievable k v → s'.Retrievable k v ∨ Cause digest128 s k v a) ∧
    ∀ url credentials request names response,
      a = .store url credentials request names response →
      let v := response.filed url names request
      v.weight ≤ s.limits.memEntryMax ∨ (s.disk = true ∧ v.body.length ≤ s.limits.diskEntryMax) →
      s'.Retrievable (storeKey digest128 url credentials request names) v ∨
        ∃ idx, Evicts digest128 s a idx

/-- The unreadable file of a resumed lookup would take an entry along that still
yields a response. -/
def DropsRetrievable (s : System) (r : Read) : Prop :=
  r.result = some .unreadable ∧ ∃ e d, s.index.entries.lookup r.vkey = some e ∧ e.disk = some d ∧
    d.generation = r.generation ∧ (e.yields s.files r.vkey).isSome

def Sparing (digest128 : List UInt8 → Key) (s : System) : Action → Prop
  | .store url credentials request names _ =>
    s.Unused (storeKey digest128 url credentials request names) s.index.generation.1
  | .resume id => ∀ r ∈ s.reads, r.id = id → ¬ s.PromotesOutdated r ∧ ¬ s.DropsRetrievable r
  | _ => True

end System


section Holds
variable {entries entries' : FiniteMap Key Entry} {files files' : Path → Option EntryFile} {k : Key}
  {v : StoredResponse}

theorem Holds.congr (held : Holds entries files k v) (same : (entries'.lookup k).bind (Entry.yields files' k) =
      (entries.lookup k).bind (Entry.yields files k)) : Holds entries' files' k v := by
  unfold Holds
  rw [same]
  exact held

theorem Holds.unchanged (held : Holds entries files k v)
    (same : entries'.lookup k = entries.lookup k) : Holds entries' files k v :=
  held.congr (by rw [same])

theorem yields_touched (e : Entry) (n : Nat) : (e.touched n).yields files k = e.yields files k := by
  cases mem : e.mem <;> cases disk : e.disk <;>
    simp [Entry.yields,Entry.resident,Entry.touched,mem,disk]

theorem yields_files (e : Entry)
    (same : ∀ d, e.disk = some d → files' (k,d.generation) = files (k,d.generation)) :
    e.yields files' k = e.yields files k := by
  unfold Entry.yields
  cases held : e.disk with
  | none => rfl
  | some d => rw [Option.bind_some,Option.bind_some,same d held]

theorem Holds.same_files (held : Holds entries files k v)
    (same : ∀ e d, entries.lookup k = some e → e.disk = some d →
      files' (k,d.generation) = files (k,d.generation)) : Holds entries files' k v := by
  apply held.congr
  cases present : entries.lookup k with
  | none => rfl
  | some e => exact yields_files e (same e · present)

end Holds

variable {digest128 : List UInt8 → Key} {s s' : System} {k : Key} {v : StoredResponse}

theorem lookup_retrievable (held : s.Retrievable k v) (url : Url) (credentials : Bool)
    (request : HeaderMap) : (s.lookup digest128 url credentials request).Retrievable k v := by
  have touched : Holds (s.index.lookup digest128 (primaryKey digest128 url credentials) url.target
      request).2.entries s.files k v := by
    rcases Index.lookup_index digest128 s.index (primaryKey digest128 url credentials) url.target
      request with same | ⟨j,e,present,touch⟩
    · rw [same]
      exact held
    · rw [touch]
      apply held.congr
      rw [Index.touch_lookup present]
      split_ifs with own
      · rw [own,present]
        exact yields_touched e _
      · rfl
  unfold System.lookup
  cases found : s.index.variantOf digest128 (primaryKey digest128 url credentials) request with
  | none =>
    simp only [found]
    exact held
  | some variant =>
    obtain ⟨j,vary⟩ := variant
    simp only [found]
    rcases Index.lookup_decision found url.target with
      miss | ⟨e,value,present,resident,target,values,hit⟩ | ⟨e,d,present,absent,held',read⟩
    · rw [miss]
      exact touched
    · rw [hit]
      exact touched
    · rw [read]
      simp only
      split_ifs
      · exact touched
      · exact touched

theorem addMemCopy_holds (ok : Sure s) {r : Read} (inside : r ∈ s.reads) {response : StoredResponse}
    (read : r.result = some (.stored response)) (matching : response.url = r.target ∧ response.vary = r.vary)
    (light : response.weight ≤ s.limits.memEntryMax) (allowed : ¬ s.PromotesOutdated r)
    (held : s.Retrievable k v) :
    Holds (s.index.addMemCopy r.vkey r.generation response).1.entries s.files k v := by
  rcases Index.addMemCopy_cases s.index r.vkey r.generation response with
    early | ⟨e,d,present,bare,slot,same,added⟩
  · rw [early]
    exact held
  · rw [added]
    apply held.congr
    have now := Index.setEntry_lookup s.index r.vkey k
      {e with mem := some ⟨response,response.weight,s.index.nextSeq + 1⟩}
    rw [show _ = _ from now]
    split_ifs with own
    · have idle : e.pendingWrite = none := by
        by_contra pending
        exact allowed ⟨response,read,matching,light,e,present,bare,⟨d,slot,same⟩,pending⟩
      have value := (ok.entries r.vkey e present).paired idle
      have legible := ((ok.entries r.vkey e present).slot d slot).2 r inside rfl same.symm response read
      rw [own,present]
      simp [Entry.yields,Entry.resident,bare,value,slot,same,legible]
    · rfl

theorem resume_keeps (ok : Sure s) {r : Read} (inside : r ∈ s.reads) {result : ReadResult}
    (read : r.result = some result) (allowed : ¬ s.PromotesOutdated r ∧ ¬ s.DropsRetrievable r)
    (held : s.Retrievable k v) :
    ({s with reads := s.reads.filter fun r' => r'.id != r.id}.resume r result).Retrievable k v ∨
      System.Cause digest128 s k v (.resume r.id) := by
  unfold System.resume
  cases result with
  | stored response =>
    simp only
    split_ifs with matching
    · by_cases light : response.weight ≤ s.limits.memEntryMax
      · have added := addMemCopy_holds ok inside read matching light allowed.1 held
        by_cases fits : (s.index.addMemCopy r.vkey r.generation response).1.memBytes ≤ s.limits.memBudget
        · left
          have same : (s.index.promote s.limits s.disk r.vkey r.generation response).1 =
              (s.index.addMemCopy r.vkey r.generation response).1 := by
            rw [Index.promote,if_neg light.not_gt]
            simp only [Index.evictMemory_fits fits]
            split_ifs <;> rfl
          rw [← same] at added
          exact added
        · right
          exact .evicted _ _ (.promote r response _ inside read rfl (Nat.lt_of_not_le fits)) added
      · left
        have same : (s.index.promote s.limits s.disk r.vkey r.generation response).1 = s.index := by
          rw [Index.promote,if_pos (Nat.lt_of_not_le light)]
        exact held.unchanged (congrArg (fun idx => idx.entries.lookup k) same)
    · exact .inl held
  | unreadable =>
    left
    unfold Index.dropUnreadable
    simp only
    split_ifs with own
    · -- The entry that goes yields nothing, or the step would be excluded.
      refine held.unchanged ?_
      refine (Index.remove_lookup s.index r.vkey k true).trans ?_
      split_ifs with same
      · subst same
        obtain ⟨w,yields,_⟩ := held
        obtain ⟨e,present,yields'⟩ := Option.bind_eq_some_iff.mp yields
        rw [present,Option.bind_some] at own
        obtain ⟨d,slot,generation⟩ := (Option.any_eq_true _ _).mp own
        exact absurd ⟨read,e,d,present,slot,by simpa using generation,by simp [yields']⟩ allowed.2
      · rfl
    · exact held
  | failed => exact .inl held

theorem placed_yields (primary j : Key) (names : List String) {response : StoredResponse}
    (fits : response.weight ≤ s.limits.memEntryMax ∨
      (s.disk = true ∧ response.body.length ≤ s.limits.diskEntryMax)) :
    Holds (s.index.place s.limits s.disk primary names j response).1.entries s.files j response := by
  refine ⟨response,?_,SameResponse.refl response⟩
  have waiting := Index.placed_waiting s.index s.limits s.disk primary j response
  have mem : (s.index.placed s.limits s.disk primary j response).mem =
      if response.weight ≤ s.limits.memEntryMax then
        some ⟨response,response.weight,s.index.nextSeq + 1⟩ else none := by
    unfold Index.placed Entry.stored
    split_ifs <;> simp_all
  have resident : (s.index.placed s.limits s.disk primary j response).resident = some response ∧
      (s.index.placed s.limits s.disk primary j response).rootless = false := by
    unfold Entry.resident Entry.rootless
    rw [mem,waiting.1,waiting.2.1,waiting.2.2]
    by_cases light : response.weight ≤ s.limits.memEntryMax
    · simp [light]
    · have onDisk := fits.resolve_left light
      simp [light,onDisk.1,onDisk.2]
  rw [Index.place_lookup,if_pos rfl,resident.2]
  simp [Entry.yields,resident.1]

theorem store_keeps (held : s.Retrievable k v) (url : Url) (credentials : Bool) (request : HeaderMap)
    (names : List String) (response : StoredResponse) :
    (s.store digest128 url credentials request names response).Retrievable k v ∨
      System.Cause digest128 s k v (.store url credentials request names response) := by
  by_cases own : storeKey digest128 url credentials request names = k
  · exact .inr (.newer url credentials request names response own)
  · have placed := Index.place_lookup s.index s.limits s.disk (primaryKey digest128 url credentials) names
      (storeKey digest128 url credentials request names) (response.filed url names request) k
    rw [if_neg fun same => own same.symm] at placed
    have kept := held.unchanged placed
    by_cases fits : (s.index.place s.limits s.disk (primaryKey digest128 url credentials) names
        (storeKey digest128 url credentials request names) (response.filed url names request)).1.memBytes ≤
        s.limits.memBudget
    · left
      have same := Index.evictMemory_fits fits s.disk (s.index.place s.limits s.disk
        (primaryKey digest128 url credentials) names (storeKey digest128 url credentials request names)
        (response.filed url names request)).2.1
      exact kept.unchanged (congrArg (fun result => result.1.entries.lookup k) same)
    · exact .inr (.evicted _ _ (.store url credentials request names response _ rfl
        (Nat.lt_of_not_le fits)) kept)

theorem store_puts (url : Url) (credentials : Bool) (request : HeaderMap) (names : List String)
    (response : StoredResponse) (fits : (response.filed url names request).weight ≤ s.limits.memEntryMax ∨
      (s.disk = true ∧ (response.filed url names request).body.length ≤ s.limits.diskEntryMax)) :
    (s.store digest128 url credentials request names response).Retrievable
        (storeKey digest128 url credentials request names) (response.filed url names request) ∨
      ∃ idx, System.Evicts digest128 s (.store url credentials request names response) idx := by
  have kept := placed_yields (primaryKey digest128 url credentials)
    (storeKey digest128 url credentials request names) names fits
  by_cases light : (s.index.place s.limits s.disk (primaryKey digest128 url credentials) names
      (storeKey digest128 url credentials request names) (response.filed url names request)).1.memBytes ≤
      s.limits.memBudget
  · left
    have same := Index.evictMemory_fits light s.disk (s.index.place s.limits s.disk
      (primaryKey digest128 url credentials) names (storeKey digest128 url credentials request names)
      (response.filed url names request)).2.1
    exact kept.unchanged (congrArg
      (fun result => result.1.entries.lookup (storeKey digest128 url credentials request names)) same)
  · exact .inr ⟨_,.store url credentials request names response _ rfl (Nat.lt_of_not_le light)⟩

theorem invalidate_keeps (held : s.Retrievable k v) (url : Url) :
    Holds (Index.invalidate digest128 s.index url s.disk).1.entries s.files k v ∨ System.Cause digest128 s k v (.invalidate url) := by
  by_cases named : ∃ credentials p, s.index.primaries.lookup (primaryKey digest128 url credentials) =
      some p ∧ k ∈ p.variants
  · obtain ⟨credentials,p,found,variant⟩ := named
    exact .inr (.invalidated url credentials p found variant)
  · left
    refine held.unchanged (Index.invalidate_spares ?_ s.disk)
    intro credentials variants listed inside
    obtain ⟨p,found,rfl⟩ := Option.map_eq_some_iff.mp listed
    exact named ⟨credentials,p,found,inside⟩

theorem commitWrite_holds (ok : Sure s) {j : Key} {g : Generation} {w : StoredResponse} {size : Nat}
    (wrote : s.writer = .wrote j g w (some size)) (current : s.index.current j g = true)
    (held : s.Retrievable k v) : Holds (s.index.commitWrite j g size).1.entries s.files k v := by
  obtain ⟨e,present,pending⟩ := (Index.current_iff s.index j g).mp current
  have committed := Index.commitWrite_lookup present g size k
  split_ifs at committed with own
  · subst own
    obtain ⟨w',value,awaited⟩ := ((ok.entries k e present).pending g pending).1
    obtain ⟨_,_,file⟩ := awaited.reported wrote
    obtain ⟨u,yields,same⟩ := held
    rw [present,Option.bind_some] at yields
    unfold Holds
    rw [committed,Option.bind_some]
    cases mem : e.mem with
    | some m =>
      refine ⟨u,?_,same⟩
      simpa [Entry.yields,Entry.resident,mem] using yields
    | none =>
      -- The pending value is answered from its file from now on.
      have pended : w' = u := by
        simpa [Entry.yields,Entry.resident,mem,value] using yields
      subst pended
      refine ⟨readEntry (writeEntry w'),?_,same.read⟩
      simp [Entry.yields,Entry.resident,file rfl]
  · exact held.unchanged committed

theorem done_keeps (ok : Sure s) {j : Key} {g : Generation} {w : StoredResponse} {result : Option Nat}
    (wrote : s.writer = .wrote j g w result) (held : s.Retrievable k v) :
    (s.finishWrite j g result).Retrievable k v ∨ System.Cause digest128 s k v .done := by
  cases current : s.index.current j g with
  | false =>
    left
    refine held.unchanged ?_
    cases result <;> simp [System.finishWrite,Index.onWriteDone,current]
  | true =>
    cases result with
    | some size =>
      have committed := commitWrite_holds ok wrote current held
      by_cases fits : (s.index.commitWrite j g size).1.diskBytes ≤ s.limits.diskBudget
      · left
        refine committed.unchanged ?_
        simp [System.finishWrite,Index.onWriteDone,current,Index.evictDisk_fits fits]
      · exact .inr (.evicted _ _ (.commit j g w size _ wrote rfl (Nat.lt_of_not_le fits)) committed)
    | none =>
      obtain ⟨e,present,pending⟩ := (Index.current_iff s.index j g).mp current
      have abandoned := Index.abandonWrite_lookup present k
      have index : (s.finishWrite j g none).index = s.index.abandonWrite j := by
        simp [System.finishWrite,Index.onWriteDone,current]
      unfold System.Retrievable
      rw [index]
      by_cases own : k = j
      · subst own
        rw [if_pos rfl] at abandoned
        obtain ⟨w',value,awaited⟩ := ((ok.entries k e present).pending g pending).1
        obtain ⟨u,yields,same⟩ := held
        rw [present,Option.bind_some] at yields
        cases mem : e.mem with
        | some m =>
          left
          refine ⟨u,?_,same⟩
          rw [abandoned]
          simpa [Entry.yields,Entry.resident,mem] using yields
        | none =>
          right
          obtain ⟨_,equal,_⟩ := awaited.reported wrote
          have pended : w' = u := by
            simpa [Entry.yields,Entry.resident,mem,value] using yields
          exact .unwritten g w wrote current (equal ▸ pended ▸ same)
      · left
        rw [if_neg own] at abandoned
        exact held.unchanged abandoned

theorem Sure.same_files (ok : Sure s) (held : s.Retrievable k v) (index : s'.index = s.index)
    (files : ∀ p, Lasting s p → s'.files p = s.files p) : s'.Retrievable k v := by
  unfold System.Retrievable
  rw [index]
  apply held.same_files
  intro e d present slot
  exact files _ ((ok.entries k e present).slot d slot).1

theorem step_keeps (ok : Sure s) {a : Action} (allowed : s.Sparing digest128 a)
    (taken : s.step digest128 a = some s') (held : s.Retrievable k v) :
    s'.Retrievable k v ∨ System.Cause digest128 s k v a := by
  have moved : ∀ shuffled : Shuffled s s', s'.Retrievable k v := fun shuffled =>
    ok.same_files held shuffled.index fun p lasting =>
      shuffled.spared p lasting.known lasting.undeleted
  cases a with
  | lookup url credentials request =>
    cases taken
    exact .inl (lookup_retrievable held url credentials request)
  | read id outcome =>
    cases taken
    exact .inl held
  | resume id =>
    cases found : s.reads.find? fun r => r.id == id with
    | none => simp [System.step,found] at taken
    | some r =>
      simp only [System.step,found] at taken
      obtain ⟨result,read,rfl⟩ := Option.map_eq_some_iff.mp taken
      have inside := List.mem_of_find?_eq_some found
      have named : r.id = id := by simpa using List.find?_some found
      subst named
      exact resume_keeps ok inside read (allowed r inside rfl) held
  | store url credentials request names response =>
    cases taken
    exact store_keeps held url credentials request names response
  | invalidate url =>
    cases taken
    exact invalidate_keeps held url
  | saveIndex =>
    left
    simp only [System.step] at taken
    split_ifs at taken
    · cases taken
      exact held
    · cases taken
      exact held
  | write metaLen =>
    left
    simp only [System.step] at taken
    split at taken
    · rename_i j g w rest idle clean head
      cases taken
      refine ok.same_files held rfl fun p lasting => performWrite_file metaLen ?_
      intro equal
      have issued := performWrite_jobs head none p
      rw [lasting.unwritten.1,if_pos equal.symm] at issued
      simpa using issued.length_eq
    · cases taken
  | done =>
    simp only [System.step] at taken
    split at taken
    · rename_i j g w result wrote
      cases taken
      exact done_keeps ok wrote held
    · cases taken
  | send _ => exact .inl (moved (channel_shuffled taken trivial))
  | cleanup _ => exact .inl (moved (channel_shuffled taken trivial))
  | beginDelete => exact .inl (moved (channel_shuffled taken trivial))
  | delete _ => exact .inl (moved (channel_shuffled taken trivial))
  | persist _ => exact .inl (moved (channel_shuffled taken trivial))

/-- In every run whose steps keep to the condition, a response stops being
retrievable only by an eviction, an invalidation, a newer store of its variant or
the failure of its own write. -/
theorem keeps_stored (digest128 : List UInt8 → Key) (dir : Bool) (memoryBudget diskBudget : Nat)
    (saved : Option IndexSnapshot) (files : Path → Option EntryFile) (actions : List Action)
    (allowed : Runs.Guarded (System.step digest128) (System.Sparing digest128)
      (System.opened dir memoryBudget diskBudget saved files) actions) :
    Runs.Each (System.step digest128) (System.KeepsStored digest128)
      (System.opened dir memoryBudget diskBudget saved files) actions := by
  refine Runs.each_of_guarded _ ?_ (opened_sure dir memoryBudget diskBudget saved files) allowed
  intro s a s' ok permitted taken
  refine ⟨?_,?_,?_⟩
  · apply step_sure ok taken
    rintro url credentials request names response rfl
    exact permitted
  · exact fun k v held => step_keeps ok permitted taken held
  · rintro url credentials request names response rfl
    cases taken
    exact fun fits => store_puts url credentials request names response fits

namespace Sample

def newer : StoredResponse := response [8]

/-- A lookup fails to read the old file while a newer response is stored. -/
def unread : List Action :=
  [.lookup page true [],.read 0 .unreadable,.store page true [] [] newer]

/-- The unreadable old file takes the newer response along. -/
theorem unreadable_file_drops_newer :
    ¬ Runs.Each (System.step digest) (System.KeepsStored digest) restarted (unread ++ [.resume 0]) := by
  intro each
  have before : (Runs.exec (System.step digest) restarted unread).map (fun s =>
      ((s.index.entries.lookup key).bind (Entry.yields s.files key),s.reads)) =
      some (some (newer.filed page [] []),[⟨0,page.target,key,[],1,some .unreadable⟩]) := by
    rfl
  have after : (Runs.exec (System.step digest) restarted (unread ++ [.resume 0])).map (fun s =>
      (s.index.entries.lookup key).isNone) = some true := by
    rfl
  obtain ⟨middle,reached,facts⟩ := Option.map_eq_some_iff.mp before
  obtain ⟨final,ended,gone⟩ := Option.map_eq_some_iff.mp after
  obtain ⟨yields,reads⟩ := Prod.mk.inj facts
  rw [Runs.exec_append,reached,Option.bind_some] at ended
  obtain ⟨next,taken,last⟩ := Runs.exec_cons_success _ ended
  cases last
  have kept := (Runs.each_at _ each reached taken).1 key (newer.filed page [] [])
    ⟨_,yields,SameResponse.refl _⟩
  rcases kept with ⟨w,found,_⟩ | cause
  · rw [Option.isNone_iff_eq_none.mp gone] at found
    cases found
  · cases cause with
    | evicted a idx evicts held =>
      generalize resumed : Action.resume 0 = action at evicts
      cases evicts with
      | store url credentials request names response => cases resumed
      | commit j g v size => cases resumed
      | promote r response idx inside read =>
        rw [reads] at inside
        cases List.mem_singleton.mp inside
        cases read

theorem keeps_stored_in_memory : Runs.Each (System.step digest) (System.KeepsStored digest)
      (System.opened false 8000 0 none fun _ => none) [.store page true [] [] small,.lookup page true []] := by
  apply keeps_stored
  refine ⟨⟨⟨rfl,?_,?_⟩,?_,?_⟩,fun _ _ => ⟨trivial,fun _ _ => trivial⟩⟩
  · intro v result equal
    cases equal
  · intro r inside
    cases inside
  · rintro (inside | ⟨paths,equal,_⟩)
    · cases inside
    · cases equal
  · intro e d here
    cases here

end Sample

end Sharko.Netstack.Cache
