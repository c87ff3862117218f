import Sharko.Netstack.Cache.Flight

/-! Lookups and the latest store: which answers a lookup may give after a store
of its variant, and the runs in which it gives no other. -/

namespace Sharko.Netstack.Cache
open Library

/-- An answer carries the url and the varied values of its lookup, and is no
response from before the last store of the variant the lookup's index step saw. -/
def ReadsLatest (log : List Event) : Prop :=
  ∀ id k target vary r, log[id]? = some (.asked k target vary) → .answered id (some r) ∈ log →
    r.url = target ∧ r.vary = vary ∧
      ∀ i g v, i < id → log[i]? = some (.stored k g v) →
        ∃ j g' w, i ≤ j ∧ log[j]? = some (.stored k g' w) ∧ SameResponse w r

namespace System

/-- The finished write failed while its entry still has the slot of an older file. -/
def ExposesOutdated (s : System) : Prop :=
  ∃ k g v, s.writer = .wrote k g v none ∧
    ∃ e, s.index.entries.lookup k = some e ∧ e.pendingWrite = some g ∧ e.disk ≠ none

/-- The steps that keep lookups at the latest store. -/
def KeepsLatest (digest128 : List UInt8 → Key) (s : System) : Action → Prop
  | .store url credentials request varyNames _ =>
    s.Free (storeKey digest128 url credentials request varyNames) s.index.generation.1
  | .resume id => ∀ r ∈ s.reads, r.id = id → ¬ s.PromotesOutdated r
  | .done => ¬ s.ExposesOutdated
  | _ => True

end System

def storedAs (k : Key) : Event → Option (Generation × StoredResponse)
  | .stored k' g v => if k' = k then some (g,v) else none
  | _ => none

def latest (k : Key) (log : List Event) : Option (Generation × StoredResponse) :=
  (log.filterMap (storedAs k)).getLast?

theorem latest_append_other (k : Key) (log : List Event) {events : List Event}
    (quiet : ∀ e ∈ events, storedAs k e = none) : latest k (log ++ events) = latest k log := by
  unfold latest
  rw [List.filterMap_append,List.filterMap_eq_nil_iff.mpr quiet,List.append_nil]

theorem latest_append_stored (k k' : Key) (log : List Event) (g : Generation) (v : StoredResponse) :
    latest k (log ++ [.stored k' g v]) = if k' = k then some (g,v) else latest k log := by
  unfold latest
  rw [List.filterMap_append]
  split_ifs with same <;> simp [storedAs,same]

theorem latest_position {k : Key} {log : List Event} {i : Nat} {g : Generation} {v : StoredResponse}
    (stored : log[i]? = some (.stored k g v)) :
    ∃ j g' w, i ≤ j ∧ log[j]? = some (.stored k g' w) ∧ latest k log = some (g',w) := by
  induction log using List.reverseRecOn with
  | nil => simp at stored
  | append_singleton log event ih =>
    by_cases last : ∃ g' w, event = .stored k g' w
    · obtain ⟨g',w,rfl⟩ := last
      refine ⟨log.length,g',w,?_,by simp,by simp [latest_append_stored]⟩
      have bound := (List.getElem?_eq_some_iff.mp stored).1
      rw [List.length_append,List.length_singleton] at bound
      omega
    · have other : storedAs k event = none := by
        cases event with
        | stored k' g' w =>
          have differ : ¬ k' = k := fun same => last ⟨g',w,by rw [same]⟩
          simp [storedAs,differ]
        | asked _ _ _ => rfl
        | answered _ _ => rfl
        | invalidated _ => rfl
      have before : i < log.length := by
        by_contra late
        have bound := (List.getElem?_eq_some_iff.mp stored).1
        rw [List.length_append,List.length_singleton] at bound
        have at_end : i = log.length := by omega
        rw [at_end,List.getElem?_concat_length] at stored
        exact last ⟨g,v,Option.some.inj stored⟩
      rw [List.getElem?_append_left before] at stored
      obtain ⟨j,g',w,later,found,newest⟩ := ih stored
      have inside := (List.getElem?_eq_some_iff.mp found).1
      refine ⟨j,g',w,later,?_,?_⟩
      · rw [List.getElem?_append_left inside,found]
      · rw [latest_append_other k log (by simpa using other),newest]

structure Current (s : System) (k : Key) (e : Entry) : Prop where
  paired : e.pendingWrite = none → e.pendingValue = none
  mem : ∀ g w m, latest k s.log = some (g,w) → e.mem = some m → SameResponse w m.value
  pending : ∀ g, e.pendingWrite = some g →
    ∃ w, latest k s.log = some (g,w) ∧ e.pendingValue = some w ∧ Awaited s k g w
  slot : ∀ g w d, latest k s.log = some (g,w) → e.pendingWrite = none → e.disk = some d →
    d.generation = g ∧ Settled s k g w

/-- A lookup in flight is recorded, reads what was the latest store at its index
step, and, if it reads the generation of the latest store, reads that. -/
structure Reading (s : System) (r : Read) : Prop where
  asked : s.log[r.id]? = some (.asked r.vkey r.target r.vary)
  seen : ∀ g w, latest r.vkey (s.log.take r.id) = some (g,w) → r.generation = g ∧ Reads s r w
  current : ∀ w, latest r.vkey s.log = some (r.generation,w) → Reads s r w

structure Answered (log : List Event) : Prop where
  named : ∀ id answer, .answered id answer ∈ log → id < log.length
  right : ∀ id k target vary r, log[id]? = some (.asked k target vary) →
    .answered id (some r) ∈ log → r.url = target ∧ r.vary = vary ∧
      ∀ g w, latest k (log.take id) = some (g,w) → SameResponse w r

structure UpToDate (s : System) : Prop where
  entries : ∀ k e, s.index.entries.lookup k = some e → Current s k e
  reads : ∀ r ∈ s.reads, Reading s r
  answered : Answered s.log

theorem readsLatest_of_answered {log : List Event} (ok : Answered log) : ReadsLatest log := by
  intro id k target vary r asked answered
  obtain ⟨url,values,newest⟩ := ok.right id k target vary r asked answered
  refine ⟨url,values,?_⟩
  intro i g v before stored
  have inside : (log.take id)[i]? = some (.stored k g v) := by
    rw [List.getElem?_take_of_lt before,stored]
  obtain ⟨j,g',w,later,found,last⟩ := latest_position inside
  have bound : j < id := by
    have short := (List.getElem?_eq_some_iff.mp found).1
    rw [List.length_take] at short
    omega
  rw [List.getElem?_take_of_lt bound] at found
  exact ⟨j,g',w,later,found,newest g' w last⟩

theorem Answered.append {log : List Event} (ok : Answered log) (event : Event)
    (empty : ∀ id answer, event = .answered id answer → id ≤ log.length ∧ answer = none) :
    Answered (log ++ [event]) := by
  refine ⟨?_,?_⟩
  · intro id answer inside
    rw [List.length_append,List.length_singleton]
    rcases List.mem_append.mp inside with before | last
    · exact Nat.lt_succ_of_lt (ok.named id answer before)
    · have bound := (empty id answer (List.mem_singleton.mp last).symm).1
      omega
  · intro id k target vary r asked answered
    rcases List.mem_append.mp answered with before | last
    · obtain ⟨same,same'⟩ := lookup_append [event] (ok.named id _ before)
      rw [same] at asked
      rw [same']
      exact ok.right id k target vary r asked before
    · cases (empty id _ (List.mem_singleton.mp last).symm).2

theorem Answered.hit {log : List Event} (ok : Answered log) {id : Nat} {k : Key} {target : String}
    {vary : VaryValues} {r : StoredResponse} (asked : log[id]? = some (.asked k target vary))
    (url : r.url = target) (values : r.vary = vary)
    (newest : ∀ g w, latest k (log.take id) = some (g,w) → SameResponse w r) :
    Answered (log ++ [.answered id (some r)]) := by
  have inside := (List.getElem?_eq_some_iff.mp asked).1
  refine ⟨?_,?_⟩
  · intro id' answer answered
    rw [List.length_append,List.length_singleton]
    rcases List.mem_append.mp answered with before | last
    · exact Nat.lt_succ_of_lt (ok.named id' answer before)
    · cases List.mem_singleton.mp last
      exact Nat.lt_succ_of_lt inside
  · intro id' k' target' vary' r' asked' answered
    rcases List.mem_append.mp answered with before | last
    · obtain ⟨same,same'⟩ := lookup_append [.answered id (some r)] (ok.named id' _ before)
      rw [same] at asked'
      rw [same']
      exact ok.right id' k' target' vary' r' asked' before
    · cases List.mem_singleton.mp last
      obtain ⟨same,same'⟩ := lookup_append [.answered id (some r)] inside
      rw [same,asked] at asked'
      cases asked'
      rw [same']
      exact ⟨url,values,newest⟩

section Carry
variable {s s' : System}

theorem Current.carry {k : Key} {e e' : Entry} (ok : Current s k e) (same : latest k s'.log = latest k s.log)
    (settled : ∀ g w, Settled s k g w → Settled s' k g w)
    (awaited : ∀ g w, e.pendingWrite = some g → Awaited s k g w → Awaited s' k g w)
    (smaller : e'.Within e) : Current s' k e' := by
  refine ⟨?_,?_,?_,?_⟩
  · intro idle
    rw [smaller.pendingValue]
    exact ok.paired (smaller.pendingWrite ▸ idle)
  · intro g w m' newest held
    obtain ⟨m,was,equal⟩ := smaller.mem m' held
    rw [← equal]
    exact ok.mem g w m (same ▸ newest) was
  · intro g pending
    have pending' := smaller.pendingWrite ▸ pending
    obtain ⟨w,newest,value,waiting⟩ := ok.pending g pending'
    exact ⟨w,same.trans newest,smaller.pendingValue.trans value,awaited g w pending' waiting⟩
  · intro g w d' newest idle held
    obtain ⟨d,was,equal⟩ := smaller.disk d' held
    obtain ⟨generation,file⟩ := ok.slot g w d (same ▸ newest) (smaller.pendingWrite ▸ idle) was
    exact ⟨equal ▸ generation,settled g w file⟩

theorem Reading.carry {r : Read} (ok : Reading s r) {events : List Event}
    (grown : s'.log = s.log ++ events) (same : latest r.vkey s'.log = latest r.vkey s.log)
    (settled : ∀ w, Settled s r.vkey r.generation w → Settled s' r.vkey r.generation w) : Reading s' r := by
  have inside := (List.getElem?_eq_some_iff.mp ok.asked).1
  obtain ⟨at_id,until_id⟩ := lookup_append events inside
  refine ⟨?_,?_,?_⟩
  · rw [grown,at_id]
    exact ok.asked
  · intro g w newest
    rw [grown,until_id] at newest
    obtain ⟨generation,reads⟩ := ok.seen g w newest
    exact ⟨generation,settled w reads.settled,reads.result⟩
  · intro w newest
    have reads := ok.current w (same ▸ newest)
    exact ⟨settled w reads.settled,reads.result⟩

theorem latest_silent {events : List Event} (grown : s'.log = s.log ++ events)
    (silent : ∀ k, ∀ e ∈ events, storedAs k e = none) (k : Key) : latest k s'.log = latest k s.log := by
  rw [grown,latest_append_other k s.log (silent k)]

theorem Quiet.upToDate (quiet : Quiet s s') {events : List Event} (grown : s'.log = s.log ++ events)
    (silent : ∀ k, ∀ e ∈ events, storedAs k e = none) (ok : UpToDate s)
    (entries : ∀ k e', s'.index.entries.lookup k = some e' →
      (∃ e, s.index.entries.lookup k = some e ∧ e'.Within e) ∨ Current s' k e')
    (reads : ∀ r ∈ s'.reads, r ∈ s.reads ∨ Reading s' r) (answered : Answered s'.log) : UpToDate s' := by
  refine ⟨?_,?_,answered⟩
  · intro k e' present
    rcases entries k e' present with ⟨e,before,smaller⟩ | current
    · exact (ok.entries k e before).carry (latest_silent grown silent k) (fun _ _ => quiet.settled)
        (fun _ _ _ => quiet.awaited) smaller
    · exact current
  · intro r inside
    rcases reads r inside with before | reading
    · exact (ok.reads r before).carry grown (latest_silent grown silent r.vkey) fun _ => quiet.settled
    · exact reading

theorem Quiet.upToDate_within (quiet : Quiet s s') (ok : UpToDate s)
    (within : Within s'.index.entries s.index.entries) (reads : s'.reads = s.reads)
    (log : s'.log = s.log) : UpToDate s' :=
  quiet.upToDate (log.trans (List.append_nil s.log).symm) (by simp) ok
    (fun k e here => .inl (within k e here)) (fun _ inside => .inl (reads ▸ inside)) (log ▸ ok.answered)

end Carry

theorem Current.resident {s : System} {k : Key} {e : Entry} (ok : Current s k e) {g : Generation}
    {w v : StoredResponse} (newest : latest k s.log = some (g,w)) (resident : e.resident = some v) :
    SameResponse w v := by
  unfold Entry.resident at resident
  cases held : e.mem with
  | some m =>
    rw [held] at resident
    cases resident
    exact ok.mem g w m newest held
  | none =>
    rw [held] at resident
    have value : e.pendingValue = some v := resident
    cases pending : e.pendingWrite with
    | none =>
      rw [ok.paired pending] at value
      cases value
    | some g' =>
      obtain ⟨w',newest',value',_⟩ := ok.pending g' pending
      rw [newest] at newest'
      rw [value] at value'
      cases newest'
      cases value'
      exact SameResponse.refl w

theorem Current.unpended {s : System} {k : Key} {e : Entry} (ok : Current s k e)
    (absent : e.resident = none) : e.pendingWrite = none := by
  have value : e.pendingValue = none := by
    unfold Entry.resident at absent
    cases held : e.mem with
    | some m => simp [held] at absent
    | none => simpa [held] using absent
  cases pending : e.pendingWrite with
  | none => rfl
  | some g =>
    obtain ⟨w,_,value',_⟩ := ok.pending g pending
    rw [value] at value'
    cases value'

variable {digest128 : List UInt8 → Key} {s s' : System}

theorem lookup_upToDate (ok : UpToDate s) (url : Url) (credentials : Bool) (request : HeaderMap) :
    UpToDate (s.lookup digest128 url credentials request) := by
  unfold System.lookup
  cases found : s.index.variantOf digest128 (primaryKey digest128 url credentials) request with
  | none =>
    simp only [found]
    have quiet := quiet_index s s.index s.reads (s.log ++ [.answered s.log.length none])
    refine quiet.upToDate rfl (by simp [storedAs]) ok ?_ (fun r inside => .inl inside)
      (ok.answered.append _ ?_)
    · exact fun k e present => .inl ⟨e,present,Entry.Within.refl e⟩
    · intro id answer equal
      cases equal
      exact ⟨le_rfl,rfl⟩
  | some variant =>
    obtain ⟨k,vary⟩ := variant
    have within := Index.lookup_within digest128 s.index (primaryKey digest128 url credentials)
      url.target request
    have asking : Answered (s.log ++ [.asked k url.target vary]) :=
      ok.answered.append _ (by intro id answer equal; cases equal)
    have asked : (s.log ++ [Event.asked k url.target vary])[s.log.length]? =
        some (.asked k url.target vary) := List.getElem?_concat_length
    have until_id : (s.log ++ [Event.asked k url.target vary]).take s.log.length = s.log :=
      List.take_left
    have missed : UpToDate (System.answer {s with
        index := (s.index.lookup digest128 (primaryKey digest128 url credentials) url.target request).2
        log := s.log ++ [.asked k url.target vary]} s.log.length none) := by
      have quiet := quiet_index s
        (s.index.lookup digest128 (primaryKey digest128 url credentials) url.target request).2 s.reads
        (s.log ++ [.asked k url.target vary] ++ [.answered s.log.length none])
      refine quiet.upToDate (List.append_assoc _ _ _) (by simp [storedAs]) ok
        (fun j e' present => .inl (within j e' present)) (fun r inside => .inl inside)
        (asking.append _ ?_)
      intro id answer equal
      cases equal
      simp
    simp only [found]
    rcases Index.lookup_decision found url.target with
      miss | ⟨e,value,present,resident,target,values,hit⟩ | ⟨e,d,present,absent,held,read⟩
    · rw [miss]
      exact missed
    · rw [hit]
      have quiet := quiet_index s
        (s.index.lookup digest128 (primaryKey digest128 url credentials) url.target request).2 s.reads
        (s.log ++ [.asked k url.target vary] ++ [.answered s.log.length (some value)])
      refine quiet.upToDate (List.append_assoc _ _ _) (by simp [storedAs]) ok
        (fun j e' here => .inl (within j e' here)) (fun r inside => .inl inside)
        (asking.hit asked target values ?_)
      intro g w newest
      rw [until_id] at newest
      exact (ok.entries k e present).resident newest resident
    · rw [read]
      simp only
      split_ifs with disk
      · have quiet := quiet_index s
          (s.index.lookup digest128 (primaryKey digest128 url credentials) url.target request).2
          (s.reads ++ [⟨s.log.length,url.target,k,vary,d.generation,none⟩])
          (s.log ++ [.asked k url.target vary])
        have current := ok.entries k e present
        have slot : ∀ g w, latest k s.log = some (g,w) →
            d.generation = g ∧ Settled s k g w :=
          fun g w newest => current.slot g w d newest (current.unpended absent) held
        refine quiet.upToDate rfl (by simp [storedAs]) ok (fun j e' here => .inl (within j e' here)) ?_
          asking
        intro r inside
        rcases List.mem_append.mp inside with before | new
        · exact .inl before
        · cases List.mem_singleton.mp new
          refine .inr ⟨asked,?_,?_⟩
          · intro g w newest
            rw [until_id] at newest
            obtain ⟨rfl,settled⟩ := slot g w newest
            exact ⟨rfl,quiet.settled settled,by simp⟩
          · intro w newest
            rw [latest_append_other k s.log (by simp [storedAs])] at newest
            exact ⟨quiet.settled (slot _ w newest).2,by simp⟩
      · exact missed

theorem read_upToDate (ok : UpToDate s) (id : Nat) (outcome : Outcome) :
    UpToDate {s with reads := s.reads.map (s.finishRead id outcome)} := by
  have quiet := quiet_index s s.index (s.reads.map (s.finishRead id outcome)) s.log
  refine quiet.upToDate (List.append_nil s.log).symm (by simp) ok
    (fun k e present => .inl ⟨e,present,Entry.Within.refl e⟩) ?_ ok.answered
  intro r' inside
  obtain ⟨r,before,rfl⟩ := List.mem_map.mp inside
  unfold System.finishRead
  split_ifs with finished
  · have reading := ok.reads r before
    -- The file that is read, if any, is the one of the store the reader is bound to.
    have result : ∀ w, Settled s r.vkey r.generation w → ∀ v,
        some (System.readFile s.files (r.vkey,r.generation) outcome) = some (.stored v) →
        v = readEntry (writeEntry w) := by
      intro w settled v stored
      cases outcome with
      | intact =>
        cases file : s.files (r.vkey,r.generation) with
        | none => simp [System.readFile,file] at stored
        | some f =>
          rw [← settled.file f file]
          simpa [System.readFile,file] using stored.symm
      | unreadable => simp [System.readFile] at stored
      | failed => simp [System.readFile] at stored
    refine .inr ⟨reading.asked,?_,?_⟩
    · intro g w newest
      obtain ⟨generation,reads⟩ := reading.seen g w newest
      exact ⟨generation,quiet.settled reads.settled,result w reads.settled⟩
    · intro w newest
      have reads := reading.current w newest
      exact ⟨quiet.settled reads.settled,result w reads.settled⟩
  · exact .inl before

theorem resume_upToDate (ok : UpToDate s) {r : Read} (inside : r ∈ s.reads) {result : ReadResult}
    (read : r.result = some result) (allowed : ¬ s.PromotesOutdated r) (id : Nat) :
    UpToDate ({s with reads := s.reads.filter fun r => r.id != id}.resume r result) := by
  have reading := ok.reads r inside
  have shorter := (List.getElem?_eq_some_iff.mp reading.asked).1
  have missed : UpToDate ({s with reads := s.reads.filter fun r => r.id != id}.answer r.id none) := by
    have quiet := quiet_index s s.index (s.reads.filter fun r => r.id != id)
      (s.log ++ [.answered r.id none])
    refine quiet.upToDate rfl (by simp [storedAs]) ok
      (fun k e present => .inl ⟨e,present,Entry.Within.refl e⟩)
      (fun r' member => .inl (List.mem_of_mem_filter member)) (ok.answered.append _ ?_)
    intro id' answer equal
    cases equal
    exact ⟨shorter.le,rfl⟩
  unfold System.resume
  cases result with
  | stored v =>
    simp only
    split_ifs with matching
    · have quiet := quiet_issue s (s.index.promote s.limits s.disk r.vkey r.generation v).1
        (s.reads.filter fun r => r.id != id) (s.log ++ [.answered r.id (some v)]) fun p =>
        writesOf_deleteJobs p (s.index.promote s.limits s.disk r.vkey r.generation v).2
      refine quiet.upToDate rfl (by simp [storedAs]) ok ?_ (fun r' member => .inl (List.mem_of_mem_filter member))
        (ok.answered.hit reading.asked matching.1 matching.2 ?_)
      · intro k e' here
        rcases Index.promote_entry here with before | ⟨rfl,light,e,d,n,present,bare,held,same,smaller⟩
        · exact .inl before
        · right
          have current := ok.entries r.vkey e present
          have idle : e.pendingWrite = none := by
            by_contra pending
            exact allowed ⟨v,read,matching,light,e,present,bare,⟨d,held,same⟩,pending⟩
          -- The added copy was read under the generation of the slot, which is the latest store's.
          have added : Current s r.vkey {e with mem := some ⟨v,v.weight,n⟩} := by
            refine ⟨current.paired,?_,current.pending,current.slot⟩
            intro g w m newest copied
            cases copied
            obtain ⟨generation,_⟩ := current.slot g w d newest idle held
            rw [← generation,same] at newest
            exact .inr ((reading.current w newest).result v read)
          exact added.carry (latest_append_other r.vkey s.log (by simp [storedAs]))
            (fun _ _ => quiet.settled) (fun _ _ _ => quiet.awaited) smaller
      · intro g w newest
        exact .inr ((reading.seen g w newest).2.result v read)
    · exact missed
  | unreadable =>
    have quiet := quiet_issue s (s.index.dropUnreadable r.vkey r.generation).1
      (s.reads.filter fun r => r.id != id) (s.log ++ [.answered r.id none]) fun p =>
      writesOf_deleteJobs p (s.index.dropUnreadable r.vkey r.generation).2
    refine quiet.upToDate rfl (by simp [storedAs]) ok ?_ (fun r' member => .inl (List.mem_of_mem_filter member))
      (ok.answered.append _ ?_)
    · exact fun k e here => .inl (Index.dropUnreadable_within s.index r.vkey r.generation k e here)
    · intro id' answer equal
      cases equal
      exact ⟨shorter.le,rfl⟩
  | failed => exact missed

theorem store_upToDate (ok : UpToDate s) (url : Url) (credentials : Bool) (request : HeaderMap)
    (varyNames : List String) (response : StoredResponse)
    (free : s.Free (storeKey digest128 url credentials request varyNames) s.index.generation.1) :
    UpToDate (s.store digest128 url credentials request varyNames response) := by
  have settled : ∀ j g w, (j,g) ≠ _ → Settled s j g w → Settled _ j g w := fun j g w =>
    store_settled digest128 url credentials request varyNames response s
  have awaited : ∀ j g w, (j,g) ≠ _ → Awaited s j g w → Awaited _ j g w := fun j g w =>
    store_awaited digest128 url credentials request varyNames response s
  have issues := fun onDisk =>
    store_issues digest128 url credentials request varyNames response s onDisk free
  have log : (s.store digest128 url credentials request varyNames response).log = s.log ++
      [.stored (storeKey digest128 url credentials request varyNames) s.index.generation.1
        (response.filed url varyNames request)] := rfl
  have reads : (s.store digest128 url credentials request varyNames response).reads = s.reads := rfl
  have entry : ∀ j e', (s.store digest128 url credentials request varyNames response).index.entries.lookup
      j = some e' → _ := fun j e' here => Index.store_entry here
  have body : (response.filed url varyNames request).body = response.body := rfl
  have waiting := Index.placed_waiting s.index s.limits s.disk (primaryKey digest128 url credentials)
    (storeKey digest128 url credentials request varyNames) (response.filed url varyNames request)
  rw [body] at waiting
  obtain ⟨write,value,slot⟩ := waiting
  generalize s.store digest128 url credentials request varyNames response = s' at *
  generalize response.filed url varyNames request = v at *
  generalize storeKey digest128 url credentials request varyNames = k at *
  generalize primaryKey digest128 url credentials = primary at *
  refine ⟨?_,?_,?_⟩
  · intro j e' here
    have change := entry j e' here
    split_ifs at change with own
    · subst own
      have newest : latest j s'.log = some (s.index.generation.1,v) := by
        rw [log,latest_append_stored,if_pos rfl]
      refine ⟨?_,?_,?_,?_⟩
      · intro idle
        rw [change.pendingWrite,write] at idle
        rw [change.pendingValue,value]
        split_ifs at idle ⊢
        rfl
      · intro g w m' last held
        obtain ⟨m,placed,equal⟩ := change.mem m' held
        rw [newest] at last
        cases last
        rw [← equal,Index.placed_mem placed]
        exact SameResponse.refl v
      · intro g pending
        rw [change.pendingWrite,write] at pending
        rw [change.pendingValue,value]
        split_ifs at pending ⊢ with onDisk
        cases pending
        exact ⟨v,newest,rfl,issues onDisk⟩
      · intro g w d' last idle held
        rw [change.pendingWrite,write] at idle
        obtain ⟨d,placed,_⟩ := change.disk d' held
        rw [slot] at placed
        split_ifs at idle placed
    · obtain ⟨e,before,smaller⟩ := change
      have other : ∀ g, (j,g) ≠ (k,s.index.generation.1) := fun g equal => own (Prod.mk.inj equal).1
      refine (ok.entries j e before).carry ?_ (fun g w => settled j g w (other g))
        (fun g w _ => awaited j g w (other g)) smaller
      rw [log,latest_append_stored,if_neg fun equal => own equal.symm]
  · intro r inside
    rw [reads] at inside
    have reading := ok.reads r inside
    have other : (r.vkey,r.generation) ≠ (k,s.index.generation.1) :=
      fun equal => free.2.2 r inside (Prod.mk.inj equal).1 (Prod.mk.inj equal).2
    obtain ⟨at_id,until_id⟩ := lookup_append
      [.stored k s.index.generation.1 v] (List.getElem?_eq_some_iff.mp reading.asked).1
    refine ⟨by rw [log,at_id]; exact reading.asked,?_,?_⟩
    · intro g w last
      rw [log,until_id] at last
      obtain ⟨generation,reads⟩ := reading.seen g w last
      exact ⟨generation,settled _ _ w other reads.settled,reads.result⟩
    · intro w last
      rw [log,latest_append_stored] at last
      split_ifs at last with own
      · exact absurd (by rw [own,(Prod.mk.inj (Option.some.inj last)).1]) other
      · have reads := reading.current w last
        exact ⟨settled _ _ w other reads.settled,reads.result⟩
  · rw [log]
    exact ok.answered.append _ (by intro id answer equal; cases equal)

theorem write_upToDate (ok : UpToDate s) {k : Key} {g : Generation} {v : StoredResponse}
    {rest : List Job} (idle : s.writer = .idle) (head : s.queue = .write k g v :: rest)
    (metaLen : Option Nat) : UpToDate (s.performWrite k g v rest metaLen) := by
  refine ⟨?_,?_,ok.answered⟩
  · intro j e here
    exact (ok.entries j e here).carry rfl (fun _ _ => performWrite_settled head metaLen)
      (fun _ _ _ => performWrite_awaited idle head metaLen) (Entry.Within.refl e)
  · intro r inside
    exact (ok.reads r inside).carry (List.append_nil s.log).symm rfl
      fun _ => performWrite_settled head metaLen

theorem done_upToDate (ok : UpToDate s) {k : Key} {g : Generation} {v : StoredResponse}
    {result : Option Nat} (wrote : s.writer = .wrote k g v result) (allowed : ¬ s.ExposesOutdated) :
    UpToDate (s.finishWrite k g result) := by
  refine ⟨?_,?_,ok.answered⟩
  · intro j e' here
    obtain ⟨e,before,change⟩ := Index.onWriteDone_entry here
    have current := ok.entries j e before
    split_ifs at change with own
    · obtain ⟨rfl,pending⟩ := own
      obtain ⟨n,smaller⟩ := change
      obtain ⟨w,newest,_,waiting⟩ := current.pending g pending
      obtain ⟨issued,_,file⟩ := waiting.reported wrote
      have reported : Current (s.finishWrite j g result) j
          {e with disk := result.elim e.disk fun size => some ⟨g,size,n⟩, pendingWrite := none,
                  pendingValue := none} := by
        refine ⟨fun _ => rfl,current.mem,by simp,?_⟩
        intro g' w' d last _ held
        have last' : latest j s.log = some (g',w') := last
        rw [newest] at last'
        cases last'
        cases result with
        | none =>
          -- A failed write leaves no slot here: the step would be excluded otherwise.
          exact absurd ⟨j,g,v,wrote,e,before,pending,by
            rw [show e.disk = some d from held]
            simp⟩ allowed
        | some size =>
          cases held
          refine ⟨rfl,?_,issued⟩
          intro f found
          have found' : s.files (j,g) = some f := found
          rw [file rfl] at found'
          exact (Option.some.inj found').symm
      exact reported.carry rfl (fun _ _ file => file) (fun _ _ _ waiting => waiting) smaller
    · refine current.carry rfl (fun _ _ => finishWrite_settled) ?_ change
      intro g' w pending
      apply finishWrite_awaited wrote
      intro equal
      obtain ⟨rfl,rfl⟩ := Prod.mk.inj equal
      exact own ⟨rfl,pending⟩
  · intro r inside
    exact (ok.reads r inside).carry (List.append_nil _).symm rfl fun _ => finishWrite_settled

theorem shuffled_upToDate (ok : UpToDate s) (shuffled : Shuffled s s') : UpToDate s' :=
  shuffled.toQuiet.upToDate_within ok (shuffled.index ▸ Within.refl _) shuffled.reads shuffled.log

theorem opened_upToDate (dir : Bool) (memoryBudget diskBudget : Nat) (saved : Option IndexSnapshot)
    (files : Path → Option EntryFile) : UpToDate (System.opened dir memoryBudget diskBudget saved files) := by
  have empty : (System.opened dir memoryBudget diskBudget saved files).log = [] ∧
      (System.opened dir memoryBudget diskBudget saved files).reads = [] := by
    cases dir <;> exact ⟨rfl,rfl⟩
  have idle : ∀ k e, (System.opened dir memoryBudget diskBudget saved files).index.entries.lookup k =
      some e → e.pendingWrite = none ∧ e.pendingValue = none := by
    intro k e here
    cases dir with
    | false => simp [System.opened,Index.new] at here
    | true =>
      obtain ⟨e₀,before,smaller⟩ := Index.evictDisk_within (Index.load (Index.loadIndex saved))
        (Limits.ofBudgets memoryBudget diskBudget) [] k e here
      obtain ⟨_,write,value⟩ := Index.load_idle before
      exact ⟨smaller.pendingWrite.trans write,smaller.pendingValue.trans value⟩
  refine ⟨?_,by simp [empty.2],⟨by simp [empty.1],by simp [empty.1]⟩⟩
  intro k e here
  obtain ⟨write,value⟩ := idle k e here
  refine ⟨fun _ => value,?_,by simp [write],?_⟩
  · intro g w m newest
    simp [empty.1,latest] at newest
  · intro g w d newest
    simp [empty.1,latest] at newest

theorem step_upToDate (ok : UpToDate s) {a : Action} (allowed : s.KeepsLatest digest128 a)
    (taken : s.step digest128 a = some s') : UpToDate s' := by
  cases a with
  | lookup url credentials request =>
    cases taken
    exact lookup_upToDate ok url credentials request
  | read id outcome =>
    cases taken
    exact read_upToDate ok id outcome
  | resume id =>
    cases found : s.reads.find? fun r => r.id == id with
    | none => simp [System.step,found] at taken
    | some r =>
      simp only [System.step,found] at taken
      obtain ⟨result,read,rfl⟩ := Option.map_eq_some_iff.mp taken
      have inside := List.mem_of_find?_eq_some found
      have named : r.id = id := by simpa using List.find?_some found
      exact resume_upToDate ok inside read (allowed r inside named) id
  | store url credentials request varyNames response =>
    cases taken
    exact store_upToDate ok url credentials request varyNames response allowed
  | invalidate url =>
    cases taken
    have quiet := quiet_issue s (Index.invalidate digest128 s.index url s.disk).1 s.reads
      (s.log ++ [.invalidated url]) fun p =>
      writesOf_deleteJobs p (Index.invalidate digest128 s.index url s.disk).2
    refine quiet.upToDate rfl (by simp [storedAs]) ok ?_ (fun r inside => .inl inside)
      (ok.answered.append _ ?_)
    · exact fun k e here => .inl (Index.invalidate_within digest128 s.index url s.disk k e here)
    · intro id answer equal
      cases equal
  | saveIndex =>
    simp only [System.step] at taken
    split_ifs at taken
    · cases taken
      have quiet := quiet_issue s s.index.snapshot.2 s.reads s.log fun p =>
        (rfl : writesOf p [.saveIndex s.index.snapshot.1] = [])
      exact quiet.upToDate_within ok (Within.refl _) rfl rfl
    · cases taken
      exact ok
  | write metaLen =>
    simp only [System.step] at taken
    split at taken
    · rename_i k g v rest idle waiting head
      cases taken
      exact write_upToDate ok idle head metaLen
    · cases taken
  | done =>
    simp only [System.step] at taken
    split at taken
    · rename_i k g v result wrote
      cases taken
      exact done_upToDate ok wrote allowed
    · cases taken
  | send _ => exact shuffled_upToDate ok (channel_shuffled taken trivial)
  | cleanup _ => exact shuffled_upToDate ok (channel_shuffled taken trivial)
  | beginDelete => exact shuffled_upToDate ok (channel_shuffled taken trivial)
  | delete _ => exact shuffled_upToDate ok (channel_shuffled taken trivial)
  | persist _ => exact shuffled_upToDate ok (channel_shuffled taken trivial)

/-- In every run whose steps keep to the condition, every answer is the latest
store of its variant at the lookup's index step, or a miss. -/
theorem reads_latest (digest128 : List UInt8 → Key) (dir : Bool) (memoryBudget diskBudget : Nat)
    (saved : Option IndexSnapshot) (files : Path → Option EntryFile) (actions : List Action)
    (allowed : Runs.Guarded (System.step digest128) (System.KeepsLatest digest128)
      (System.opened dir memoryBudget diskBudget saved files) actions) :
    Runs.Always (System.step digest128) (fun s => ReadsLatest s.log)
      (System.opened dir memoryBudget diskBudget saved files) actions := by
  refine Runs.always_of_guarded _ ?_ ?_ (opened_upToDate dir memoryBudget diskBudget saved files) allowed
  · exact fun s a s' ok allowed taken => step_upToDate ok allowed taken
  · exact fun s ok => readsLatest_of_answered ok.answered

theorem outdated_answer {log : List Event} {id i : Nat} {k : Key} {target : String}
    {vary : VaryValues} {g : Generation} {v r : StoredResponse}
    (asked : log[id]? = some (.asked k target vary)) (answered : .answered id (some r) ∈ log)
    (stored : log[i]? = some (.stored k g v)) (before : i < id)
    (older : (log.drop i).all fun e => (storedAs k e).all fun p => !decide (SameResponse p.2 r)) :
    ¬ ReadsLatest log := by
  intro promised
  obtain ⟨j,g',w,later,found,same⟩ := (promised id k target vary r asked answered).2.2 i g v before stored
  have inside : Event.stored k g' w ∈ log.drop i := by
    apply List.mem_of_getElem? (i := j - i)
    rw [List.getElem?_drop,Nat.add_sub_cancel' later,found]
  have differs := List.all_eq_true.mp older _ inside
  simp [storedAs,same] at differs

namespace Sample

/-- A lookup reads the old file while a new response, too large for the memory
tier, waits for its write. -/
def overtaken : List Action :=
  [.lookup page true [],.read 0 .intact,.store page true [] [] large,.resume 0,.lookup page true []]

def unwritten : List Action :=
  [.store page true [] [] large,.send 0,.cleanup [],.write none,.done,.lookup page true [],
   .read 1 .intact,.resume 1]

set_option maxRecDepth 20000 in
/-- A promotion beside a pending write brings the outdated response back. -/
theorem promotion_returns_outdated :
    ¬ Runs.Always (System.step digest) (fun s => ReadsLatest s.log) restarted overtaken := by
  intro always
  have ran : (Runs.exec (System.step digest) restarted overtaken).map System.log = some
      [.asked key page.target [],.stored key 2 (large.filed page [] []),
       .answered 0 (some (small.filed page [] [])),.asked key page.target [],
       .answered 3 (some (small.filed page [] []))] := by
    rfl
  obtain ⟨final,reached,log⟩ := Option.map_eq_some_iff.mp ran
  have promised := Runs.always_final _ always reached
  rw [log] at promised
  refine outdated_answer (i := 1) (show _[3]? = some _ from rfl) (r := small.filed page [] []) ?_ rfl
    ?_ ?_ promised
  · simp
  · decide
  · rfl

set_option maxRecDepth 20000 in
theorem failed_write_returns_outdated :
    ¬ Runs.Always (System.step digest) (fun s => ReadsLatest s.log) restarted unwritten := by
  intro always
  have ran : (Runs.exec (System.step digest) restarted unwritten).map System.log = some
      [.stored key 2 (large.filed page [] []),.asked key page.target [],
       .answered 1 (some (small.filed page [] []))] := by
    rfl
  obtain ⟨final,reached,log⟩ := Option.map_eq_some_iff.mp ran
  have promised := Runs.always_final _ always reached
  rw [log] at promised
  refine outdated_answer (i := 0) (show _[1]? = some _ from rfl) (r := small.filed page [] []) ?_
    rfl Nat.zero_lt_one ?_ promised
  · simp
  · rfl

/-- A cache in memory answers from the last of two stores. -/
theorem reads_latest_in_memory :
    Runs.Always (System.step digest) (fun s => ReadsLatest s.log) (System.opened false 8000 0 none fun _ => none)
      [.store page true [] [] small,.lookup page true []] := by
  apply reads_latest
  refine ⟨⟨rfl,?_,?_⟩,fun _ _ => ⟨trivial,fun _ _ => trivial⟩⟩
  · intro v result equal
    cases equal
  · intro r inside
    cases inside

end Sample

end Sharko.Netstack.Cache
