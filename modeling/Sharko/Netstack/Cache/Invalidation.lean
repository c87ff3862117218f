import Sharko.Netstack.Cache.Generations

/-! Lookups after an invalidation: what they are answered with was stored after it. -/

namespace Sharko.Netstack.Cache
open Library

section Representation
variable (digest128 : List UInt8 → Key) (owner : Key → Key)

def Covers (url : Url) (k : Key) : Prop :=
  ∃ credentials, owner k = primaryKey digest128 url credentials

def Outlives (log : List Event) (k : Key) (v : StoredResponse) : Prop :=
  ∀ (j : Nat) url, log[j]? = some (Event.invalidated url) → Covers digest128 owner url k →
    ∃ (i : Nat) (g : Generation) (w : StoredResponse),
      j < i ∧ log[i]? = some (Event.stored k g w) ∧ SameResponse w v

namespace System

def core (s : System) : HttpCache := {s.toHttpCache with saved := none}

/-- The steps on which the generation counter does not wrap and the digest keeps
the variants of different primary keys apart. -/
def Regular (s : System) : Action → Prop
  | .store url credentials request names _ =>
    s.Unwrapped ∧ owner (storeKey digest128 url credentials request names) =
      primaryKey digest128 url credentials
  | .lookup url credentials request => ∀ k vary,
    s.index.variantOf digest128 (primaryKey digest128 url credentials) request = some (k,vary) →
      owner k = primaryKey digest128 url credentials
  | _ => True

end System

/-- A lookup in flight is recorded, and the file it reads or has read outlives
what was invalidated before its index step. -/
structure Tracked (s : System) (r : Read) : Prop where
  asked : s.log[r.id]? = some (.asked r.vkey r.target r.vary)
  unwritten : writesOf (r.vkey,r.generation) s.jobs = [] ∧
    ∀ v result, s.writer ≠ .wrote r.vkey r.generation v result
  file : ∀ f, s.files (r.vkey,r.generation) = some f →
    Outlives digest128 owner (s.log.take r.id) r.vkey (readEntry f)
  result : ∀ v, r.result = some (.stored v) → Outlives digest128 owner (s.log.take r.id) r.vkey v

structure Renewed (log : List Event) (files : Path → Option EntryFile) (k : Key) (e : Entry) : Prop where
  mem : ∀ m, e.mem = some m → Outlives digest128 owner log k m.value
  pending : ∀ v, e.pendingValue = some v → Outlives digest128 owner log k v
  slot : ∀ d f, e.disk = some d → files (k,d.generation) = some f →
    Outlives digest128 owner log k (readEntry f)

def Justified (log : List Event) : Prop :=
  ∀ id r, .answered id (some r) ∈ log → ∃ k target vary, log[id]? = some (.asked k target vary) ∧
    Outlives digest128 owner (log.take id) k r

structure Traced (s : System) : Prop where
  entries : ∀ k e, s.index.entries.lookup k = some e → Renewed digest128 owner s.log s.files k e
  reads : ∀ r ∈ s.reads, Tracked digest128 owner s r
  answers : Justified digest128 owner s.log

structure Cleared (s : System) : Prop where
  sure : Sure s
  drawn : Drawn s
  sound : s.core.Sound owner
  traced : Traced digest128 owner s

end Representation

variable {digest128 : List UInt8 → Key} {owner : Key → Key} {s s' : System}

theorem shuffled_core (shuffled : Shuffled s s') : s'.core = s.core := by
  simp only [System.core,shuffled.index,shuffled.disk,shuffled.limits]

theorem step_section {a : Action} (taken : s.step digest128 a = some s')
    (regular : s.Regular digest128 owner a) :
    s'.core = s.core ∨ ∃ piece, HttpCache.Collisionless digest128 owner piece ∧
      s'.core = s.core.step digest128 piece := by
  cases a with
  | lookup url credentials request =>
    right
    refine ⟨.lookup url credentials request,trivial,?_⟩
    cases taken
    unfold System.lookup
    cases found : s.index.variantOf digest128 (primaryKey digest128 url credentials) request with
    | none => simp [found,System.core,System.answer,HttpCache.step,Index.lookup]
    | some variant =>
      obtain ⟨k,vary⟩ := variant
      simp only [found]
      split <;> (try split_ifs) <;> rfl
  | read id outcome =>
    cases taken
    exact .inl rfl
  | resume id =>
    cases found : s.reads.find? fun r => r.id == id with
    | none => simp [System.step,found] at taken
    | some r =>
      simp only [System.step,found] at taken
      obtain ⟨result,_,rfl⟩ := Option.map_eq_some_iff.mp taken
      cases result with
      | stored v =>
        unfold System.resume
        simp only
        split_ifs
        · exact .inr ⟨.promote r.vkey r.generation v,trivial,rfl⟩
        · exact .inl rfl
      | unreadable => exact .inr ⟨.dropUnreadable r.vkey r.generation,trivial,rfl⟩
      | failed => exact .inl rfl
  | store url credentials request names response =>
    cases taken
    exact .inr ⟨.store url credentials request names response,regular.2,rfl⟩
  | invalidate url =>
    cases taken
    exact .inr ⟨.invalidate url,trivial,rfl⟩
  | saveIndex =>
    simp only [System.step] at taken
    split_ifs at taken
    · cases taken
      exact .inr ⟨.saveIndex false,trivial,rfl⟩
    · cases taken
      exact .inl rfl
  | done =>
    simp only [System.step] at taken
    split at taken
    · rename_i k g v result wrote
      cases taken
      exact .inr ⟨.writeDone k g result,trivial,rfl⟩
    · cases taken
  | write metaLen =>
    simp only [System.step] at taken
    split at taken
    · cases taken
      exact .inl rfl
    · cases taken
  | send _ => exact .inl (shuffled_core (channel_shuffled taken trivial))
  | cleanup _ => exact .inl (shuffled_core (channel_shuffled taken trivial))
  | beginDelete => exact .inl (shuffled_core (channel_shuffled taken trivial))
  | delete _ => exact .inl (shuffled_core (channel_shuffled taken trivial))
  | persist _ => exact .inl (shuffled_core (channel_shuffled taken trivial))

theorem step_sound {a : Action} (ok : s.core.Sound owner) (taken : s.step digest128 a = some s')
    (regular : s.Regular digest128 owner a) : s'.core.Sound owner := by
  rcases step_section taken regular with same | ⟨piece,distinct,same⟩
  · rw [same]
    exact ok
  · rw [same]
    exact HttpCache.step_sound ok piece distinct

theorem Outlives.append {log : List Event} {k : Key} {v : StoredResponse}
    (ok : Outlives digest128 owner log k v) {events : List Event}
    (silent : ∀ url, .invalidated url ∈ events → ¬ Covers digest128 owner url k) :
    Outlives digest128 owner (log ++ events) k v := by
  intro j url invalidated covers
  have inside : j < log.length := by
    by_contra late
    rw [List.getElem?_append_right (Nat.le_of_not_lt late)] at invalidated
    exact silent url (List.mem_of_getElem? invalidated) covers
  rw [(lookup_append events inside).1] at invalidated
  obtain ⟨i,g,w,later,stored,same⟩ := ok j url invalidated covers
  refine ⟨i,g,w,later,?_,same⟩
  rw [(lookup_append events (List.getElem?_eq_some_iff.mp stored).1).1]
  exact stored

theorem Outlives.reread {log : List Event} {k : Key} {v : StoredResponse}
    (ok : Outlives digest128 owner log k v) : Outlives digest128 owner log k (readEntry (writeEntry v)) := by
  intro j url invalidated covers
  obtain ⟨i,g,w,later,stored,same⟩ := ok j url invalidated covers
  exact ⟨i,g,w,later,stored,same.read⟩

theorem outlives_stored (log : List Event) (k : Key) (g : Generation) (v : StoredResponse) :
    Outlives digest128 owner (log ++ [.stored k g v]) k v := by
  intro j url invalidated _
  refine ⟨log.length,g,v,?_,List.getElem?_concat_length,SameResponse.refl v⟩
  have bound := (List.getElem?_eq_some_iff.mp invalidated).1
  rw [List.length_append,List.length_singleton] at bound
  refine Nat.lt_of_le_of_ne (Nat.le_of_lt_succ bound) ?_
  rintro rfl
  rw [List.getElem?_concat_length] at invalidated
  cases invalidated

theorem Renewed.carry {log : List Event} {files files' : Path → Option EntryFile} {k : Key}
    {e e' : Entry} (ok : Renewed digest128 owner log files k e) (smaller : e'.Within e)
    {events : List Event} (silent : ∀ url, .invalidated url ∈ events → ¬ Covers digest128 owner url k)
    (kept : ∀ d' f, e'.disk = some d' → files' (k,d'.generation) = some f → files (k,d'.generation) = some f) :
    Renewed digest128 owner (log ++ events) files' k e' := by
  refine ⟨?_,?_,?_⟩
  · intro m' held
    obtain ⟨m,was,same⟩ := smaller.mem m' held
    rw [← same]
    exact (ok.mem m was).append silent
  · intro v value
    exact (ok.pending v (smaller.pendingValue ▸ value)).append silent
  · intro d' f held found
    obtain ⟨d,was,same⟩ := smaller.disk d' held
    have file := kept d' f held found
    rw [← same] at file
    exact (ok.slot d f was file).append silent

theorem Justified.append {log : List Event} (ok : Justified digest128 owner log) {events : List Event}
    (new : ∀ id r, .answered id (some r) ∈ events → ∃ k target vary,
      (log ++ events)[id]? = some (.asked k target vary) ∧
        Outlives digest128 owner ((log ++ events).take id) k r) :
    Justified digest128 owner (log ++ events) := by
  intro id r answered
  rcases List.mem_append.mp answered with before | given
  · obtain ⟨k,target,vary,asked,outlives⟩ := ok id r before
    obtain ⟨at_id,until_id⟩ := lookup_append events (List.getElem?_eq_some_iff.mp asked).1
    exact ⟨k,target,vary,at_id.trans asked,until_id.symm ▸ outlives⟩
  · exact new id r given

theorem Tracked.carry {r : Read} (ok : Tracked digest128 owner s r) {events : List Event}
    (grown : s'.log = s.log ++ events) (unwritten : writesOf (r.vkey,r.generation) s'.jobs = [] ∧
      ∀ v result, s'.writer ≠ .wrote r.vkey r.generation v result)
    (kept : ∀ f, s'.files (r.vkey,r.generation) = some f → s.files (r.vkey,r.generation) = some f) :
    Tracked digest128 owner s' r := by
  obtain ⟨at_id,until_id⟩ := lookup_append events (List.getElem?_eq_some_iff.mp ok.asked).1
  refine ⟨?_,unwritten,?_,?_⟩
  · rw [grown,at_id]
    exact ok.asked
  · intro f found
    rw [grown,until_id]
    exact ok.file f (kept f found)
  · rw [grown,until_id]
    exact ok.result

theorem Tracked.quiet {r : Read} (ok : Tracked digest128 owner s r) (quiet : Quiet s s')
    {events : List Event} (grown : s'.log = s.log ++ events) : Tracked digest128 owner s' r := by
  refine ok.carry grown ⟨?_,?_⟩ (quiet.files _)
  · have same := quiet.jobs (r.vkey,r.generation)
    rw [ok.unwritten.1] at same
    exact List.perm_nil.mp same
  · intro v result wrote
    exact ok.unwritten.2 v result ((quiet.writer _ _ v result).mp wrote)

theorem Quiet.traced (quiet : Quiet s s') (ok : Traced digest128 owner s) {events : List Event}
    (grown : s'.log = s.log ++ events)
    (silent : ∀ k e', s'.index.entries.lookup k = some e' → ∀ url, .invalidated url ∈ events →
      ¬ Covers digest128 owner url k) (entries : ∀ k e', s'.index.entries.lookup k = some e' →
      (∃ e, s.index.entries.lookup k = some e ∧ e'.Within e) ∨ Renewed digest128 owner s'.log s'.files k e')
    (reads : ∀ r ∈ s'.reads, r ∈ s.reads ∨ Tracked digest128 owner s' r)
    (answers : ∀ id r, .answered id (some r) ∈ events → ∃ k target vary,
      s'.log[id]? = some (.asked k target vary) ∧ Outlives digest128 owner (s'.log.take id) k r) :
    Traced digest128 owner s' := by
  refine ⟨?_,?_,?_⟩
  · intro k e' here
    rcases entries k e' here with ⟨e,before,smaller⟩ | renewed
    · rw [grown]
      exact (ok.entries k e before).carry smaller (silent k e' here) fun d' f _ => quiet.files _ f
    · exact renewed
  · intro r inside
    rcases reads r inside with before | tracked
    · exact (ok.reads r before).quiet quiet grown
    · exact tracked
  · rw [grown] at answers ⊢
    exact ok.answers.append answers

theorem Renewed.resident {log : List Event} {files : Path → Option EntryFile} {k : Key} {e : Entry}
    (ok : Renewed digest128 owner log files k e) {v : StoredResponse} (resident : e.resident = some v) :
    Outlives digest128 owner log k v := by
  unfold Entry.resident at resident
  cases held : e.mem with
  | some m =>
    rw [held] at resident
    cases resident
    exact ok.mem m held
  | none =>
    rw [held] at resident
    exact ok.pending v resident

theorem lookup_traced (sure : Sure s) (ok : Traced digest128 owner s) (url : Url) (credentials : Bool)
    (request : HeaderMap) : Traced digest128 owner (s.lookup digest128 url credentials request) := by
  unfold System.lookup
  cases found : s.index.variantOf digest128 (primaryKey digest128 url credentials) request with
  | none =>
    simp only [found]
    refine (quiet_index s s.index s.reads (s.log ++ [.answered s.log.length none])).traced ok rfl
      (by simp) ?_ (fun r inside => .inl inside) (by simp)
    exact fun k e here => .inl ⟨e,here,Entry.Within.refl e⟩
  | some variant =>
    obtain ⟨k,vary⟩ := variant
    have within := Index.lookup_within digest128 s.index (primaryKey digest128 url credentials)
      url.target request
    have asked : (s.log ++ [Event.asked k url.target vary])[s.log.length]? =
        some (.asked k url.target vary) := List.getElem?_concat_length
    have until_id : (s.log ++ [Event.asked k url.target vary]).take s.log.length = s.log :=
      List.take_left
    have missed : Traced digest128 owner (System.answer {s with
        index := (s.index.lookup digest128 (primaryKey digest128 url credentials) url.target request).2
        log := s.log ++ [.asked k url.target vary]} s.log.length none) := by
      refine (quiet_index s _ s.reads
        (s.log ++ [.asked k url.target vary] ++ [.answered s.log.length none])).traced ok
        (List.append_assoc _ _ _) (by simp) (fun j e here => .inl (within j e here))
        (fun r inside => .inl inside) (by simp)
    simp only [found]
    rcases Index.lookup_decision found url.target with
      miss | ⟨e,value,present,resident,_,_,hit⟩ | ⟨e,d,present,absent,held,read⟩
    · rw [miss]
      exact missed
    · rw [hit]
      refine (quiet_index s _ s.reads
        (s.log ++ [.asked k url.target vary] ++ [.answered s.log.length (some value)])).traced ok
        (List.append_assoc _ _ _) (by simp) (fun j e here => .inl (within j e here))
        (fun r inside => .inl inside) ?_
      intro id r answered
      have same : id = s.log.length ∧ r = value := by simpa using answered
      obtain ⟨rfl,rfl⟩ := same
      obtain ⟨at_id,until_id'⟩ := lookup_append [.answered s.log.length (some r)]
        (List.getElem?_eq_some_iff.mp asked).1
      refine ⟨k,url.target,vary,at_id.trans asked,?_⟩
      rw [until_id',until_id]
      exact (ok.entries k e present).resident resident
    · rw [read]
      simp only
      split_ifs
      · have quiet := quiet_index s
          (s.index.lookup digest128 (primaryKey digest128 url credentials) url.target request).2
          (s.reads ++ [⟨s.log.length,url.target,k,vary,d.generation,none⟩])
          (s.log ++ [.asked k url.target vary])
        refine quiet.traced ok rfl (by simp) (fun j e here => .inl (within j e here)) ?_ (by simp)
        intro r inside
        rcases List.mem_append.mp inside with before | new
        · exact .inl before
        · cases List.mem_singleton.mp new
          have lasting := ((sure.entries k e present).slot d held).1
          refine .inr ⟨asked,lasting.unwritten,?_,by simp⟩
          intro f file
          rw [until_id]
          exact (ok.entries k e present).slot d f held file
      · exact missed

theorem read_traced (ok : Traced digest128 owner s) (id : Nat) (outcome : Outcome) :
    Traced digest128 owner {s with reads := s.reads.map (s.finishRead id outcome)} := by
  refine (quiet_index s s.index (s.reads.map (s.finishRead id outcome)) s.log).traced ok
    (List.append_nil s.log).symm (by simp) (fun k e here => .inl ⟨e,here,Entry.Within.refl e⟩) ?_ (by simp)
  intro r' inside
  obtain ⟨r,before,rfl⟩ := List.mem_map.mp inside
  have tracked := ok.reads r before
  by_cases finished : r.id = id ∧ r.result = none
  · rw [System.finishRead,if_pos finished]
    refine .inr ⟨tracked.asked,tracked.unwritten,tracked.file,?_⟩
    intro v result
    cases outcome with
    | intact =>
      cases file : s.files (r.vkey,r.generation) with
      | none => simp [System.readFile,file] at result
      | some f =>
        have same : readEntry f = v := by simpa [System.readFile,file] using result
        rw [← same]
        exact tracked.file f file
    | unreadable => simp [System.readFile] at result
    | failed => simp [System.readFile] at result
  · rw [System.finishRead,if_neg finished]
    exact .inl before

theorem resume_traced (sure : Sure s) (ok : Traced digest128 owner s) {r : Read} (inside : r ∈ s.reads)
    {result : ReadResult} (read : r.result = some result) (id : Nat) :
    Traced digest128 owner ({s with reads := s.reads.filter fun r => r.id != id}.resume r result) := by
  have tracked := ok.reads r inside
  have shorter := (List.getElem?_eq_some_iff.mp tracked.asked).1
  have fewer : ∀ r' ∈ s.reads.filter fun r => r.id != id, r' ∈ s.reads :=
    fun r' member => List.mem_of_mem_filter member
  have missed : Traced digest128 owner ({s with reads := s.reads.filter fun r => r.id != id}.answer
      r.id none) := by
    refine (quiet_index s s.index (s.reads.filter fun r => r.id != id)
      (s.log ++ [.answered r.id none])).traced ok rfl (by simp) ?_
      (fun r' member => .inl (fewer r' member)) (by simp)
    exact fun k e here => .inl ⟨e,here,Entry.Within.refl e⟩
  unfold System.resume
  cases result with
  | stored v =>
    simp only
    split_ifs
    · refine (quiet_issue s (s.index.promote s.limits s.disk r.vkey r.generation v).1
        (s.reads.filter fun r => r.id != id) (s.log ++ [.answered r.id (some v)]) fun p =>
        writesOf_deleteJobs p (s.index.promote s.limits s.disk r.vkey r.generation v).2).traced ok rfl
        (by simp) ?_ (fun r' member => .inl (fewer r' member)) ?_
      · intro k e' here
        rcases Index.promote_entry here with before | ⟨rfl,_,e,d,n,present,_,held,same,smaller⟩
        · exact .inl before
        · right
          have renewed := ok.entries r.vkey e present
          -- The copy is what the file of the slot holds.
          have legible := ((sure.entries r.vkey e present).slot d held).2 r inside rfl same.symm v read
          obtain ⟨f,file,equal⟩ := Option.map_eq_some_iff.mp legible
          have added : Renewed digest128 owner s.log s.files r.vkey
              {e with mem := some ⟨v,v.weight,n⟩} := by
            refine ⟨?_,renewed.pending,renewed.slot⟩
            intro m copied
            cases copied
            rw [← equal]
            exact renewed.slot d f held (same ▸ file)
          exact added.carry smaller (by simp) fun d' f _ found => found
      · intro id' r' answered
        have same : id' = r.id ∧ r' = v := by simpa using answered
        obtain ⟨rfl,rfl⟩ := same
        obtain ⟨at_id,until_id⟩ := lookup_append [.answered r.id (some r')] shorter
        exact ⟨_,_,_,at_id.trans tracked.asked,until_id.symm ▸ tracked.result r' read⟩
    · exact missed
  | unreadable =>
    refine (quiet_issue s (s.index.dropUnreadable r.vkey r.generation).1
      (s.reads.filter fun r => r.id != id) (s.log ++ [.answered r.id none]) fun p =>
      writesOf_deleteJobs p (s.index.dropUnreadable r.vkey r.generation).2).traced ok rfl (by simp) ?_
      (fun r' member => .inl (fewer r' member)) (by simp)
    exact fun k e here => .inl (Index.dropUnreadable_within s.index r.vkey r.generation k e here)
  | failed => exact missed

theorem store_traced (ok : Traced digest128 owner s) (url : Url) (credentials : Bool)
    (request : HeaderMap) (names : List String) (response : StoredResponse)
    (unused : s.Unused (storeKey digest128 url credentials request names) s.index.generation.1) :
    Traced digest128 owner (s.store digest128 url credentials request names response) := by
  refine ⟨?_,?_,?_⟩
  · intro k e' here
    have change := Index.store_entry here
    split_ifs at change with own
    · have fresh : Outlives digest128 owner
          (s.store digest128 url credentials request names response).log k
          (response.filed url names request) := by
        rw [own]
        exact outlives_stored s.log _ s.index.generation.1 _
      have waiting := Index.placed_waiting s.index s.limits s.disk (primaryKey digest128 url credentials)
        (storeKey digest128 url credentials request names) (response.filed url names request)
      refine ⟨?_,?_,?_⟩
      · intro m' held
        obtain ⟨m,placed,equal⟩ := change.mem m' held
        rw [← equal,Index.placed_mem placed]
        exact fresh
      · intro v value
        rw [change.pendingValue,waiting.2.1] at value
        split_ifs at value
        cases value
        exact fresh
      · intro d' f held found
        obtain ⟨d,was,same⟩ := change.disk d' held
        rw [waiting.2.2] at was
        split_ifs at was
        unfold Index.oldEntry at was
        cases present : s.index.entries.lookup (storeKey digest128 url credentials request names) with
        | none => simp [present] at was
        | some e =>
          rw [present] at was
          have file : s.files (k,d'.generation) = some f := found
          rw [← same] at file
          rw [own] at file ⊢
          exact ((ok.entries _ e present).slot d f was file).append (by simp)
    · obtain ⟨e,before,smaller⟩ := change
      exact (ok.entries k e before).carry smaller (by simp) fun d' f _ found => found
  · intro r inside
    have tracked := ok.reads r inside
    have other : (r.vkey,r.generation) ≠
        (storeKey digest128 url credentials request names,s.index.generation.1) :=
      fun equal => unused.1.2.2 r inside (Prod.mk.inj equal).1 (Prod.mk.inj equal).2
    refine tracked.carry rfl ⟨?_,tracked.unwritten.2⟩ fun f found => found
    have kept := store_elsewhere digest128 url credentials request names response s other
    rw [tracked.unwritten.1] at kept
    exact List.perm_nil.mp kept
  · exact ok.answers.append (by simp)

theorem write_traced (sure : Sure s) (ok : Traced digest128 owner s) {k : Key} {g : Generation}
    {v : StoredResponse} {rest : List Job} (head : s.queue = .write k g v :: rest)
    (metaLen : Option Nat) : Traced digest128 owner (s.performWrite k g v rest metaLen) := by
  -- A file that nothing in flight writes is not the one that is written.
  have spared : ∀ p, writesOf p s.jobs = [] → p ≠ (k,g) := by
    intro p unwritten equal
    have issued := performWrite_jobs head none p
    rw [unwritten,if_pos equal.symm] at issued
    simpa using issued.length_eq
  refine ⟨?_,?_,ok.answers⟩
  · intro j e here
    have carried : Renewed digest128 owner (s.log ++ []) (s.performWrite k g v rest metaLen).files j e := by
      refine (ok.entries j e here).carry (Entry.Within.refl e) (by simp) ?_
      intro d f held found
      have lasting := ((sure.entries j e here).slot d held).1
      rw [performWrite_file metaLen (spared _ lasting.unwritten.1)] at found
      exact found
    rw [List.append_nil] at carried
    exact carried
  · intro r inside
    have tracked := ok.reads r inside
    have other := spared _ tracked.unwritten.1
    refine tracked.carry (List.append_nil s.log).symm ⟨?_,?_⟩ ?_
    · have kept := performWrite_elsewhere head metaLen other
      rw [tracked.unwritten.1] at kept
      exact List.nil_perm.mp kept
    · intro u result wrote
      cases wrote
      exact other rfl
    · intro f found
      rw [performWrite_file metaLen other] at found
      exact found

theorem done_traced (sure : Sure s) (ok : Traced digest128 owner s) {k : Key} {g : Generation}
    {v : StoredResponse} {result : Option Nat} (wrote : s.writer = .wrote k g v result) :
    Traced digest128 owner (s.finishWrite k g result) := by
  refine ⟨?_,?_,ok.answers⟩
  · intro j e' here
    obtain ⟨e,before,change⟩ := Index.onWriteDone_entry here
    have renewed := ok.entries j e before
    split_ifs at change with own
    · obtain ⟨rfl,pending⟩ := own
      obtain ⟨n,smaller⟩ := change
      obtain ⟨⟨w,value,awaited⟩,_⟩ := (sure.entries j e before).pending g pending
      obtain ⟨_,_,file⟩ := awaited.reported wrote
      refine ⟨?_,?_,?_⟩
      · intro m' held
        obtain ⟨m,was,same⟩ := smaller.mem m' held
        rw [← same]
        exact renewed.mem m was
      · intro u value'
        rw [smaller.pendingValue] at value'
        cases value'
      · intro d' f held found
        obtain ⟨d,was,same⟩ := smaller.disk d' held
        cases result with
        | none => exact renewed.slot d f was (same ▸ found)
        | some size =>
          cases was
          have found' : s.files (j,d'.generation) = some f := found
          rw [← same,file rfl] at found'
          cases found'
          exact (renewed.pending w value).reread
    · have carried : Renewed digest128 owner (s.log ++ []) s.files j e' :=
        renewed.carry change (by simp) fun d' f _ found => found
      rw [List.append_nil] at carried
      exact carried
  · intro r inside
    have tracked := ok.reads r inside
    refine tracked.carry (List.append_nil s.log).symm ⟨tracked.unwritten.1,?_⟩ fun f found => found
    intro u result' equal
    cases equal

theorem invalidate_uncovered (sound : s.core.Sound owner) (url : Url) {k : Key} {e : Entry}
    (here : (Index.invalidate digest128 s.index url s.disk).1.entries.lookup k = some e) :
    ¬ Covers digest128 owner url k := by
  have gone : ∀ (idx : Index) (credentials : Bool), Represented owner idx →
      owner k = primaryKey digest128 url credentials →
      (idx.removeVariants (primaryKey digest128 url credentials) s.disk).1.entries.lookup k = none := by
    intro idx credentials ok belongs
    unfold Index.removeVariants
    rw [Index.removeAll_lookup]
    cases present : idx.entries.lookup k with
    | none => simp
    | some e =>
      rw [if_pos]
      have group : idx.primaryOf k = some (primaryKey digest128 url credentials) := by
        unfold Index.primaryOf
        rw [present,Option.map_some,ok.owned k e present,belongs]
      obtain ⟨named,listed⟩ := Option.isSome_iff_exists.mp (ok.grouped.listed k _ group)
      have listed' : (idx.primaries.lookup (primaryKey digest128 url credentials)).map
          Primary.variants = some named := listed
      rw [listed']
      exact (ok.grouped.exact _ named listed k).mpr group
  rintro ⟨credentials,belongs⟩
  have represented : Represented owner s.index := sound.represented
  have second : Represented owner (s.index.removeVariants (primaryKey digest128 url true) s.disk).1 :=
    (Index.removeAll_represented represented s.disk _).1
  cases credentials with
  | false =>
    have absent := gone _ false second belongs
    rw [Index.invalidate] at here
    exact absurd (absent.symm.trans here) (by simp)
  | true =>
    have absent := gone s.index true represented belongs
    obtain ⟨e₁,before,_⟩ := Index.removeAll_within (s.index.removeVariants
      (primaryKey digest128 url true) s.disk).1 s.disk _ k e here
    rw [absent] at before
    cases before

theorem step_cleared (ok : Cleared digest128 owner s) {a : Action}
    (regular : s.Regular digest128 owner a) (taken : s.step digest128 a = some s') :
    Cleared digest128 owner s' := by
  have unused : ∀ url credentials request names response,
      a = .store url credentials request names response →
      s.Unused (storeKey digest128 url credentials request names) s.index.generation.1 := by
    rintro url credentials request names response rfl
    exact ok.drawn.unused regular.1 _
  refine ⟨step_sure ok.sure taken unused,step_drawn ok.drawn taken ?_,
    step_sound ok.sound taken regular,?_⟩
  · rintro url credentials request names response rfl
    exact regular.1
  have moved : ∀ shuffled : Shuffled s s', Traced digest128 owner s' := by
    intro shuffled
    refine shuffled.toQuiet.traced ok.traced (shuffled.log.trans (List.append_nil s.log).symm) (by simp) ?_
      (fun r inside => .inl (shuffled.reads ▸ inside)) (by simp)
    intro k e here
    rw [shuffled.index] at here
    exact .inl ⟨e,here,Entry.Within.refl e⟩
  cases a with
  | lookup url credentials request =>
    cases taken
    exact lookup_traced ok.sure ok.traced url credentials request
  | read id outcome =>
    cases taken
    exact read_traced ok.traced id outcome
  | resume id =>
    cases found : s.reads.find? fun r => r.id == id with
    | none => simp [System.step,found] at taken
    | some r =>
      simp only [System.step,found] at taken
      obtain ⟨result,read,rfl⟩ := Option.map_eq_some_iff.mp taken
      exact resume_traced ok.sure ok.traced (List.mem_of_find?_eq_some found) read id
  | store url credentials request names response =>
    cases taken
    exact store_traced ok.traced url credentials request names response (unused _ _ _ _ _ rfl)
  | invalidate url =>
    cases taken
    refine (quiet_issue s (Index.invalidate digest128 s.index url s.disk).1 s.reads
      (s.log ++ [.invalidated url]) fun p =>
      writesOf_deleteJobs p (Index.invalidate digest128 s.index url s.disk).2).traced ok.traced rfl ?_ ?_
      (fun r inside => .inl inside) (by simp)
    · intro k e here url' listed
      have same : url' = url := by simpa using listed
      rw [same]
      exact invalidate_uncovered ok.sound url here
    · exact fun k e here => .inl (Index.invalidate_within digest128 s.index url s.disk k e here)
  | saveIndex =>
    simp only [System.step] at taken
    split_ifs at taken
    · cases taken
      refine (quiet_issue s s.index.snapshot.2 s.reads s.log fun p =>
        (rfl : writesOf p [.saveIndex s.index.snapshot.1] = [])).traced ok.traced
        (List.append_nil s.log).symm (by simp) ?_ (fun r inside => .inl inside) (by simp)
      exact fun k e here => .inl ⟨e,here,Entry.Within.refl e⟩
    · cases taken
      exact ok.traced
  | write metaLen =>
    simp only [System.step] at taken
    split at taken
    · rename_i k g v rest idle clean head
      cases taken
      exact write_traced ok.sure ok.traced head metaLen
    · cases taken
  | done =>
    simp only [System.step] at taken
    split at taken
    · rename_i k g v result wrote
      cases taken
      exact done_traced ok.sure ok.traced wrote
    · cases taken
  | send _ => exact moved (channel_shuffled taken trivial)
  | cleanup _ => exact moved (channel_shuffled taken trivial)
  | beginDelete => exact moved (channel_shuffled taken trivial)
  | delete _ => exact moved (channel_shuffled taken trivial)
  | persist _ => exact moved (channel_shuffled taken trivial)

theorem opened_cleared (dir : Bool) (memoryBudget diskBudget : Nat) {saved : Option IndexSnapshot}
    (lists : ∀ snapshot, saved = some snapshot → snapshot.Lists owner) (files : Path → Option EntryFile) :
    Cleared digest128 owner (System.opened dir memoryBudget diskBudget saved files) := by
  have core : (System.opened dir memoryBudget diskBudget saved files).core =
      {HttpCache.openDir dir memoryBudget diskBudget saved with saved := none} := by
    cases dir <;> rfl
  have sound := HttpCache.openDir_sound dir memoryBudget diskBudget lists
  have empty : (System.opened dir memoryBudget diskBudget saved files).log = [] ∧
      (System.opened dir memoryBudget diskBudget saved files).reads = [] := by
    cases dir <;> exact ⟨rfl,rfl⟩
  refine ⟨opened_sure dir memoryBudget diskBudget saved files,
    opened_drawn dir memoryBudget diskBudget saved files,?_,⟨?_,by simp [empty.2],?_⟩⟩
  · rw [core]
    exact ⟨sound.represented,sound.memory,sound.onDisk,by simp⟩
  · intro k e _
    rw [empty.1]
    refine ⟨?_,?_,?_⟩
    · intro m _ j url invalidated
      simp at invalidated
    · intro v _ j url invalidated
      simp at invalidated
    · intro d f _ _ j url invalidated
      simp at invalidated
  · intro id r answered
    rw [empty.1] at answered
    cases answered

end Sharko.Netstack.Cache
