import Sharko.Netstack.Cache.Invalidation
import Sharko.Netstack.Fetch

/-! What requests in flight may bring back into the cache: a response that an
unsafe request invalidated, and one that a newer response replaced. -/

namespace Sharko.Netstack.Fetch
open Library Cache Policy

namespace NetworkCore

def Filed (c : NetworkCore) (filing : Filing) (r : StoredResponse) : Prop :=
  ∃ k g w, c.cache.log[filing.position]? = some (.stored k g w) ∧ SameResponse w r

/-- Nothing a request from before an invalidation brought is served after it, and
a 304 replaces nothing that was stored since the lookup of its request. -/
structure ForgetsOld (c : NetworkCore) : Prop where
  served : ∀ serving ∈ c.served, ∀ j ∈ c.unsafeAt, ∀ url,
    c.cache.log[j]? = some (.invalidated url) → url.target = serving.url.target → j < serving.servedAt →
      ∃ filing ∈ c.filed, j < filing.sentAt ∧ c.Filed filing serving.response
  replaced : ∀ filing ∈ c.filed, ∀ lookup notModified,
    filing.source = .revalidated lookup notModified → ∀ j k g w g' w', lookup < j → j < filing.position →
      c.cache.log[filing.position]? = some (.stored k g w) →
      c.cache.log[j]? ≠ some (.stored k g' w')

/-- A lookup after an invalidation is served what was stored after it, and a 304
stores the response its own request's lookup was answered with, with its headers
merged into it. -/
structure ServesStored (c : NetworkCore) : Prop where
  served : ∀ serving ∈ c.served, ∀ (j : Nat) (url : Url),
    c.cache.log[j]? = some (.invalidated url) → url.target = serving.url.target → j < serving.lookup →
      ∃ filing ∈ c.filed, j < filing.position ∧ filing.position < serving.lookup ∧
        c.Filed filing serving.response
  merged : ∀ filing ∈ c.filed, ∀ lookup notModified,
    filing.source = .revalidated lookup notModified → ∃ stored k g w,
      .answered lookup (some stored) ∈ c.cache.log ∧
      c.cache.log[filing.position]? = some (.stored k g w) ∧ w.status = stored.status ∧
      w.body = stored.body ∧ w.headers = mergeNotModified stored.headers (headersToVec notModified)

/-- The generation counter does not wrap and the digest has no collision in the
critical section of the move. -/
def Regular (crates : Crates) (owner : Key → Key) (c : NetworkCore) (move : Move) : Prop :=
  ∀ a ∈ c.cacheAction move, c.cache.Regular crates.digest128 owner a

end NetworkCore

def Stage.revalidating : Stage → Option (Nat × StoredResponse)
  | .looking _ => none
  | .ready revalidating | .sending revalidating _ _ _ | .received revalidating _ _ _ _ _ => revalidating

def Asked (crates : Crates) (owner : Key → Key) (log : List Event) (url : Url) (lookup : Nat) : Prop :=
  lookup < log.length ∧ ∀ k target vary, log[lookup]? = some (.asked k target vary) →
    Covers crates.digest128 owner url k

def Answered (crates : Crates) (owner : Key → Key) (log : List Event) (url : Url) (lookup : Nat)
    (stored : StoredResponse) : Prop :=
  Asked crates owner log url lookup ∧ .answered lookup (some stored) ∈ log

structure Task.Recorded (crates : Crates) (owner : Key → Key) (log : List Event) (t : Task) : Prop where
  asked : ∀ lookup, t.stage = .looking lookup → Asked crates owner log t.hop.url lookup
  answered : ∀ lookup stored, t.stage.revalidating = some (lookup,stored) →
    Answered crates owner log t.hop.url lookup stored

namespace NetworkCore

/-- What a lookup before the serving was answered with was stored after every
invalidation of its url. -/
def Renews (c : NetworkCore) (serving : Serving) : Prop :=
  serving.lookup ≤ c.cache.log.length ∧ ∀ (j : Nat) (url : Url),
    c.cache.log[j]? = some (.invalidated url) → url.target = serving.url.target → j < serving.lookup →
      ∃ filing ∈ c.filed, j < filing.position ∧ filing.position < serving.lookup ∧
        c.Filed filing serving.response

def Merges (c : NetworkCore) (filing : Filing) : Prop :=
  ∀ lookup notModified, filing.source = .revalidated lookup notModified → ∃ stored k g w,
    .answered lookup (some stored) ∈ c.cache.log ∧
    c.cache.log[filing.position]? = some (.stored k g w) ∧ w.status = stored.status ∧
    w.body = stored.body ∧ w.headers = mergeNotModified stored.headers (headersToVec notModified)

structure Orderly (crates : Crates) (owner : Key → Key) (c : NetworkCore) : Prop where
  cleared : Cleared crates.digest128 owner c.cache
  filings : ∀ i k g w, c.cache.log[i]? = some (.stored k g w) → ∃ filing ∈ c.filed, filing.position = i
  merges : ∀ filing ∈ c.filed, c.Merges filing
  tasks : ∀ t ∈ c.tasks, t.Recorded crates owner c.cache.log
  renews : ∀ serving ∈ c.served, c.Renews serving

end NetworkCore

section Log
variable {digest128 : List UInt8 → Key} {s s' : System}

def StoresNothing (events : List Event) : Prop := ∀ k g v, .stored k g v ∉ events

theorem step_log {a : Action} (taken : s.step digest128 a = some s') :
    ∃ events, s'.log = s.log ++ events ∧ (StoresNothing events ∨
      ∃ url credentials request names response, a = .store url credentials request names response ∧
        events = [.stored (storeKey digest128 url credentials request names) s.index.generation.1
          (response.filed url names request)]) := by
  have silent : s'.log = s.log → _ := fun same =>
    (⟨[],by rw [same,List.append_nil],.inl (by intro k g v inside; cases inside)⟩ :
      ∃ events, s'.log = s.log ++ events ∧ (StoresNothing events ∨
        ∃ url credentials request names response, a = .store url credentials request names response ∧
          events = [.stored (storeKey digest128 url credentials request names) s.index.generation.1
            (response.filed url names request)]))
  cases a with
  | lookup url credentials request =>
    cases taken
    unfold System.lookup
    cases found : s.index.variantOf digest128 (primaryKey digest128 url credentials) request with
    | none => exact ⟨[_],by simp only [found]; rfl,.inl (by intro k g v inside; simp at inside)⟩
    | some variant =>
      obtain ⟨k,vary⟩ := variant
      simp only [found]
      rcases Index.lookup_decision found url.target with
        miss | ⟨e,value,_,_,_,_,hit⟩ | ⟨e,d,_,_,_,read⟩
      · rw [miss]
        exact ⟨[_,_],List.append_assoc _ _ _,.inl (by intro k g v inside; simp at inside)⟩
      · rw [hit]
        exact ⟨[_,_],List.append_assoc _ _ _,.inl (by intro k g v inside; simp at inside)⟩
      · rw [read]
        simp only
        split_ifs
        · exact ⟨[_],rfl,.inl (by intro k g v inside; simp at inside)⟩
        · exact ⟨[_,_],List.append_assoc _ _ _,.inl (by intro k g v inside; simp at inside)⟩
  | read id outcome =>
    cases taken
    exact silent rfl
  | resume id =>
    cases found : s.reads.find? fun r => r.id == id with
    | none => simp [System.step,found] at taken
    | some r =>
      simp only [System.step,found] at taken
      obtain ⟨result,_,rfl⟩ := Option.map_eq_some_iff.mp taken
      unfold System.resume
      cases result with
      | stored v =>
        simp only
        split_ifs
        · exact ⟨[_],rfl,.inl (by intro k g v inside; simp at inside)⟩
        · exact ⟨[_],rfl,.inl (by intro k g v inside; simp at inside)⟩
      | unreadable => exact ⟨[_],rfl,.inl (by intro k g v inside; simp at inside)⟩
      | failed => exact ⟨[_],rfl,.inl (by intro k g v inside; simp at inside)⟩
  | store url credentials request names response =>
    cases taken
    exact ⟨_,rfl,.inr ⟨url,credentials,request,names,response,rfl,rfl⟩⟩
  | invalidate url =>
    cases taken
    exact ⟨[_],rfl,.inl (by intro k g v inside; simp at inside)⟩
  | saveIndex =>
    simp only [System.step] at taken
    split_ifs at taken
    · cases taken
      exact silent rfl
    · cases taken
      exact silent rfl
  | write metaLen =>
    simp only [System.step] at taken
    split at taken
    · cases taken
      exact silent rfl
    · cases taken
  | done =>
    simp only [System.step] at taken
    split at taken
    · cases taken
      exact silent rfl
    · cases taken
  | send _ => exact silent (channel_shuffled taken trivial).log
  | cleanup _ => exact silent (channel_shuffled taken trivial).log
  | beginDelete => exact silent (channel_shuffled taken trivial).log
  | delete _ => exact silent (channel_shuffled taken trivial).log
  | persist _ => exact silent (channel_shuffled taken trivial).log

theorem lookup_log (s : System) (url : Url) (credentials : Bool) (request : HeaderMap) :
    s.log.length < (s.lookup digest128 url credentials request).log.length ∧ ∀ k target vary,
        (s.lookup digest128 url credentials request).log[s.log.length]? = some (.asked k target vary) →
        s.index.variantOf digest128 (primaryKey digest128 url credentials) request = some (k,vary) := by
  unfold System.lookup
  cases found : s.index.variantOf digest128 (primaryKey digest128 url credentials) request with
  | none => simp [found,System.answer]
  | some variant =>
    obtain ⟨k,vary⟩ := variant
    simp only [found]
    rcases Index.lookup_decision found url.target with
      miss | ⟨e,value,_,_,_,_,hit⟩ | ⟨e,d,_,_,_,read⟩
    · rw [miss]
      simp [System.answer]
    · rw [hit]
      simp [System.answer]
    · rw [read]
      simp only
      split_ifs
      · simp
      · simp [System.answer]

theorem log_persists {events : List Event} (grown : s'.log = s.log ++ events) {i : Nat} {event : Event}
    (recorded : s.log[i]? = some event) : s'.log[i]? = some event := by
  rw [grown,(lookup_append events (List.getElem?_eq_some_iff.mp recorded).1).1]
  exact recorded

theorem log_before {events : List Event} (grown : s'.log = s.log ++ events) {i : Nat} {event : Event}
    (inside : i < s.log.length) (recorded : s'.log[i]? = some event) : s.log[i]? = some event := by
  rw [grown,(lookup_append events inside).1] at recorded
  exact recorded

end Log

section Steps
variable {crates : Crates} {owner : Key → Key}

theorem covers_same_target {digest128 : List UInt8 → Key} {url url' : Url} {k : Key}
    (covers : Covers digest128 owner url k) (same : url'.target = url.target) :
    Covers digest128 owner url' k := by
  obtain ⟨credentials,owned⟩ := covers
  refine ⟨credentials,?_⟩
  rw [owned]
  simp only [primaryKey,same]

theorem Asked.grown {log events : List Event} {url : Url} {lookup : Nat}
    (ok : Asked crates owner log url lookup) : Asked crates owner (log ++ events) url lookup := by
  obtain ⟨inside,covers⟩ := ok
  refine ⟨Nat.lt_of_lt_of_le inside (by simp),?_⟩
  intro k target vary asked
  rw [(lookup_append events inside).1] at asked
  exact covers k target vary asked

theorem Task.Recorded.grown {log events : List Event} {t : Task} (ok : t.Recorded crates owner log) :
    t.Recorded crates owner (log ++ events) := by
  refine ⟨fun lookup looking => (ok.asked lookup looking).grown,?_⟩
  intro lookup stored revalidates
  obtain ⟨asked,answered⟩ := ok.answered lookup stored revalidates
  exact ⟨asked.grown,List.mem_append_left events answered⟩

theorem Task.recorded_unlooking {log : List Event} {t : Task} (unlooking : ∀ lookup, t.stage ≠ .looking lookup)
    (answered : ∀ lookup stored, t.stage.revalidating = some (lookup,stored) →
      Answered crates owner log t.hop.url lookup stored) : t.Recorded crates owner log :=
  ⟨fun lookup looking => absurd looking (unlooking lookup),answered⟩

namespace NetworkCore
variable {c c' : NetworkCore}

theorem task_mem {id : Nat} {t : Task} (found : c.task id = some t) : t ∈ c.tasks :=
  List.mem_of_find?_eq_some found

theorem Filed.grown {filing : Filing} {r : StoredResponse} {events : List Event}
    (filed : c.Filed filing r) (log : c'.cache.log = c.cache.log ++ events) : c'.Filed filing r := by
  obtain ⟨k,g,w,stored,same⟩ := filed
  exact ⟨k,g,w,log_persists log stored,same⟩

theorem Renews.grown {serving : Serving} {events : List Event} (ok : c.Renews serving)
    (log : c'.cache.log = c.cache.log ++ events) (filed : ∀ filing ∈ c.filed, filing ∈ c'.filed) :
    c'.Renews serving := by
  obtain ⟨inside,renews⟩ := ok
  refine ⟨by rw [log,List.length_append]; exact Nat.le_add_right_of_le inside,?_⟩
  intro j url invalidated same before
  obtain ⟨filing,listed,after,earlier,held⟩ :=
    renews j url (log_before log (Nat.lt_of_lt_of_le before inside) invalidated) same before
  exact ⟨filing,filed filing listed,after,earlier,held.grown log⟩

theorem Merges.grown {filing : Filing} {events : List Event} (ok : c.Merges filing)
    (log : c'.cache.log = c.cache.log ++ events) : c'.Merges filing := by
  intro lookup notModified source
  obtain ⟨stored,k,g,w,answered,held,rest⟩ := ok lookup notModified source
  exact ⟨stored,k,g,w,log ▸ List.mem_append_left events answered,log_persists log held,rest⟩

theorem Orderly.advanced (ok : c.Orderly crates owner) {cache : System} {events : List Event}
    (cleared : Cleared crates.digest128 owner cache) (log : cache.log = c.cache.log ++ events)
    (storeless : StoresNothing events) : ({c with cache := cache} : NetworkCore).Orderly crates owner := by
  refine ⟨cleared,?_,?_,?_,?_⟩
  · intro i k g w stored
    by_cases inside : i < c.cache.log.length
    · exact ok.filings i k g w (log_before log inside stored)
    · refine absurd ?_ (storeless k g w)
      have here : (c.cache.log ++ events)[i]? = some (Event.stored k g w) := log ▸ stored
      rw [List.getElem?_append_right (Nat.le_of_not_lt inside)] at here
      exact List.mem_of_getElem? here
  · exact fun filing listed => (ok.merges filing listed).grown log
  · intro t inside
    have grown : t.Recorded crates owner (c.cache.log ++ events) := (ok.tasks t inside).grown
    rw [← log] at grown
    exact grown
  · exact fun serving listed => (ok.renews serving listed).grown log fun _ listed => listed

theorem Orderly.retasked (ok : c.Orderly crates owner) (cache : c'.cache = c.cache) (filed : c'.filed = c.filed)
    (tasks : ∀ t ∈ c'.tasks, t.Recorded crates owner c.cache.log)
    (served : ∀ serving ∈ c'.served, serving ∈ c.served ∨ c.Renews serving) : c'.Orderly crates owner := by
  have log : c'.cache.log = c.cache.log ++ [] := by rw [cache,List.append_nil]
  refine ⟨cache ▸ ok.cleared,?_,?_,?_,?_⟩
  · rw [cache,filed]
    exact ok.filings
  · intro filing listed
    exact (ok.merges filing (filed ▸ listed)).grown log
  · rw [cache]
    exact tasks
  · intro serving listed
    have renews : c.Renews serving := (served serving listed).elim (ok.renews serving) id
    exact renews.grown log fun filing listed => filed ▸ listed

theorem Orderly.setStage (ok : c.Orderly crates owner) (t : Task) {stage : Stage}
    (unlooking : ∀ lookup, stage ≠ .looking lookup)
    (answered : ∀ lookup stored, stage.revalidating = some (lookup,stored) →
      Answered crates owner c.cache.log t.hop.url lookup stored) :
    (c.setStage t stage).Orderly crates owner := by
  refine ok.retasked rfl rfl ?_ fun serving listed => .inl listed
  intro t' inside
  obtain ⟨t₀,inside',rfl⟩ := List.mem_map.mp inside
  split_ifs
  · exact Task.recorded_unlooking unlooking answered
  · exact ok.tasks t₀ inside'

theorem Orderly.finish (ok : c.Orderly crates owner) (t : Task) : (c.finish crates t).Orderly crates owner :=
  ok.retasked rfl rfl (fun t' inside => ok.tasks t' (List.mem_of_mem_filter inside)) fun _ listed =>
    .inl listed

theorem Orderly.spawn (ok : c.Orderly crates owner) {hop : Hop} {headers : HeaderMap}
    {control : CacheControl} {mode : CacheMode} {background : Bool} {stage : Stage}
    (recorded : (⟨c.nextTask,hop,headers,control,mode,background,stage⟩ : Task).Recorded crates owner
      c.cache.log) : (c.spawn hop headers control mode background stage).Orderly crates owner := by
  refine ok.retasked rfl rfl ?_ fun _ listed => .inl listed
  intro t inside
  rcases List.mem_append.mp inside with old | new
  · exact ok.tasks t old
  · rw [List.mem_singleton.mp new]
    exact recorded

theorem Orderly.proceed (ok : c.Orderly crates owner) (t : Task) {revalidating : Option (Nat × StoredResponse)}
    (answered : ∀ lookup stored, revalidating = some (lookup,stored) →
      Answered crates owner c.cache.log t.hop.url lookup stored) :
    (c.proceed crates t revalidating).Orderly crates owner := by
  unfold NetworkCore.proceed
  split_ifs
  · exact ok.finish t
  · exact ok.setStage t (by simp) answered

theorem Orderly.serve (ok : c.Orderly crates owner) (t : Task) {lookup : Nat} {stored : StoredResponse}
    (renews : c.Renews ⟨lookup,c.cache.log.length,t.hop.url,stored⟩) :
    (c.serve crates t lookup stored).Orderly crates owner := by
  refine ok.retasked rfl rfl (fun t' inside => ok.tasks t' (List.mem_of_mem_filter inside)) ?_
  intro serving listed
  rcases List.mem_append.mp listed with old | new
  · exact .inl old
  · rw [List.mem_singleton.mp new]
    exact .inr renews

theorem answerOf_mem {log : List Event} {lookup : Nat} {answer : Option StoredResponse}
    (found : answerOf log lookup = some answer) : .answered lookup answer ∈ log := by
  obtain ⟨event,inside,read⟩ := List.exists_of_findSome?_eq_some found
  cases event with
  | answered id answer' =>
    simp only at read
    split_ifs at read with same
    cases read
    exact same ▸ inside
  | stored _ _ _ => cases read
  | asked _ _ _ => cases read
  | invalidated _ => cases read

theorem Orderly.renewed (ok : c.Orderly crates owner) {url : Url} {lookup : Nat} {stored : StoredResponse}
    (answered : Answered crates owner c.cache.log url lookup stored) (servedAt : Nat) :
    c.Renews ⟨lookup,servedAt,url,stored⟩ := by
  obtain ⟨⟨inside,covers⟩,answered⟩ := answered
  obtain ⟨k,target,vary,asked,outlives⟩ := ok.cleared.traced.answers lookup stored answered
  refine ⟨Nat.le_of_lt inside,?_⟩
  intro j url invalidated same before
  have earlier : (c.cache.log.take lookup)[j]? = some (.invalidated url) := by
    rw [List.getElem?_take_of_lt before]
    exact invalidated
  obtain ⟨i,g,w,after,held,same⟩ :=
    outlives j url earlier (covers_same_target (covers k target vary asked) same)
  have bound : i < lookup := by
    have short := (List.getElem?_eq_some_iff.mp held).1
    rw [List.length_take] at short
    exact Nat.lt_of_lt_of_le short (Nat.min_le_left _ _)
  rw [List.getElem?_take_of_lt bound] at held
  obtain ⟨filing,listed,rfl⟩ := ok.filings i k g w held
  exact ⟨filing,listed,after,bound,k,g,w,held,same⟩

theorem Orderly.conclude (ok : c.Orderly crates owner) {t : Task} (recorded : t.Recorded crates owner c.cache.log) :
    (c.conclude crates t).Orderly crates owner := by
  unfold NetworkCore.conclude
  split
  · rename_i lookup stored net _ _ _ _ stage
    split_ifs
    · exact ok.serve t (ok.renewed (recorded.answered lookup stored (by rw [stage]; rfl)) _)
    · exact ok.finish t
  · exact ok.finish t

theorem Orderly.revalidateInBackground (ok : c.Orderly crates owner) (t : Task) {lookup : Nat}
    {stored : StoredResponse} (answered : Answered crates owner c.cache.log t.hop.url lookup stored) :
    (c.revalidateInBackground crates t lookup stored).Orderly crates owner := by
  unfold NetworkCore.revalidateInBackground
  simp only
  split_ifs
  · exact ok
  · have noted : ({c with revalidating := c.revalidating ++
        [primaryKey crates.digest128 t.hop.url t.hop.credentials]} : NetworkCore).Orderly crates owner :=
      ok.retasked rfl rfl ok.tasks fun _ listed => .inl listed
    refine noted.spawn (Task.recorded_unlooking ?_ ?_)
    · simp
    · rintro lookup' stored' revalidates
      cases revalidates
      exact answered

theorem Orderly.decideStored (ok : c.Orderly crates owner) {t : Task} {lookup : Nat}
    {stored : StoredResponse} (answered : Answered crates owner c.cache.log t.hop.url lookup stored)
    (now : SystemTime) : (c.decideStored crates t lookup stored now).Orderly crates owner := by
  have served := ok.serve t (ok.renewed answered c.cache.log.length)
  have fetched : (c.proceed crates t (if (validators stored.headers).isEmpty then none
      else some (lookup,stored))).Orderly crates owner := by
    refine ok.proceed t ?_
    intro lookup' stored' revalidates
    split_ifs at revalidates
    cases revalidates
    exact answered
  have refreshed : ((c.revalidateInBackground crates t lookup stored).serve crates t lookup
      stored).Orderly crates owner := by
    have same : (c.revalidateInBackground crates t lookup stored).cache = c.cache := by
      unfold NetworkCore.revalidateInBackground
      simp only
      split_ifs <;> rfl
    refine (ok.revalidateInBackground t answered).serve t ?_
    refine (ok.revalidateInBackground t answered).renewed ?_ _
    rw [same]
    exact answered
  unfold NetworkCore.decideStored
  cases t.mode with
  | forceCache => exact served
  | onlyIfCached => exact served
  | noCache => exact fetched
  | default | noStore | reload =>
    cases evaluate crates.parseHttpDate stored t.control now with
    | fresh => exact served
    | staleWhileRevalidate => exact refreshed
    | stale => exact fetched

end NetworkCore

theorem Task.filing_cases {t : Task} {a : Action} {source : Source} (files : t.filing = some (a,source)) :
    (∃ net, source = .received net) ∨ ∃ lookup stored notModified requestTime responseTime,
      t.stage.revalidating = some (lookup,stored) ∧ source = .revalidated lookup notModified ∧
      a = storeRevalidated t.hop t.headers stored notModified requestTime responseTime := by
  unfold Task.filing at files
  cases stage : t.stage with
  | looking _ => simp [stage] at files
  | ready _ => simp [stage] at files
  | sending _ _ _ _ => simp [stage] at files
  | received revalidating net requestTime responseTime sentAt invalidations =>
    cases invalidations with
    | cons _ _ => simp [stage] at files
    | nil =>
      simp only [stage] at files
      have fresh : (if t.background || (t.cacheable && net.status != 304) then
          (maybeStore t.hop t.headers t.control net requestTime responseTime).map fun a =>
            (a,Source.received net) else none) = some (a,source) → ∃ net, source = .received net := by
        intro stored
        split_ifs at stored
        obtain ⟨_,_,same⟩ := Option.map_eq_some_iff.mp stored
        cases same
        exact ⟨net,rfl⟩
      cases revalidating with
      | none => exact .inl (fresh files)
      | some answer =>
        obtain ⟨lookup,stored⟩ := answer
        simp only at files
        by_cases unmodified : net.status = 304
        · rw [if_pos unmodified] at files
          cases files
          exact .inr ⟨lookup,stored,net.headers,requestTime,responseTime,rfl,rfl,rfl⟩
        · rw [if_neg unmodified] at files
          exact .inl (fresh files)

namespace NetworkCore
variable {c c' : NetworkCore}

theorem Orderly.stored (ok : c.Orderly crates owner) {cache : System} {k : Key} {g : Generation}
    {w : StoredResponse} (cleared : Cleared crates.digest128 owner cache)
    (log : cache.log = c.cache.log ++ [.stored k g w]) (sentAt : Nat) {source : Source}
    (merged : ∀ lookup notModified, source = .revalidated lookup notModified → ∃ stored,
      .answered lookup (some stored) ∈ c.cache.log ∧ w.status = stored.status ∧ w.body = stored.body ∧
      w.headers = mergeNotModified stored.headers (headersToVec notModified)) : ({c with
      cache := cache
      filed := c.filed ++ [⟨c.cache.log.length,sentAt,source⟩]} : NetworkCore).Orderly crates owner := by
  have here : cache.log[c.cache.log.length]? = some (.stored k g w) := by
    rw [log]
    exact List.getElem?_concat_length
  refine ⟨cleared,?_,?_,?_,?_⟩
  · intro i k' g' w' held
    by_cases inside : i < c.cache.log.length
    · obtain ⟨filing,listed,at_⟩ := ok.filings i k' g' w' (log_before log inside held)
      exact ⟨filing,List.mem_append_left _ listed,at_⟩
    · have bound := (List.getElem?_eq_some_iff.mp held).1
      rw [log,List.length_append,List.length_singleton] at bound
      exact ⟨_,List.mem_append_right _ (List.mem_singleton.mpr rfl),
        Nat.le_antisymm (Nat.le_of_not_lt inside) (Nat.le_of_lt_succ bound)⟩
  · intro filing listed
    rcases List.mem_append.mp listed with old | new
    · exact (ok.merges filing old).grown log
    · rw [List.mem_singleton.mp new]
      intro lookup notModified from304
      obtain ⟨stored,answered,status,body,headers⟩ := merged lookup notModified from304
      exact ⟨stored,k,g,w,log ▸ List.mem_append_left _ answered,here,status,body,headers⟩
  · intro t inside
    have grown : t.Recorded crates owner (c.cache.log ++ [.stored k g w]) := (ok.tasks t inside).grown
    rw [← log] at grown
    exact grown
  · exact fun serving listed => (ok.renews serving listed).grown log fun _ listed =>
      List.mem_append_left _ listed

theorem step_cases {move : Move} (taken : c.step crates move = some c') :
    (c.cacheAction move = none ∧ book crates c c.cache.log move = some c') ∨
    ∃ a cache, c.cacheAction move = some a ∧ c.cache.step crates.digest128 a = some cache ∧
      book crates {c with cache := cache} c.cache.log move = some c' := by
  unfold NetworkCore.step at taken
  cases action : c.cacheAction move with
  | none =>
    simp only [action] at taken
    exact .inl ⟨rfl,taken⟩
  | some a =>
    simp only [action] at taken
    obtain ⟨cache,moved,booked⟩ := Option.bind_eq_some_iff.mp taken
    exact .inr ⟨a,cache,rfl,moved,booked⟩

theorem Orderly.section (ok : c.Orderly crates owner) {a : Action} {cache : System}
    (regular : c.cache.Regular crates.digest128 owner a) (moved : c.cache.step crates.digest128 a = some cache)
    (storeless : ∀ url credentials request names response, a ≠ .store url credentials request names response) :
    ({c with cache := cache} : NetworkCore).Orderly crates owner := by
  obtain ⟨events,log,silent | ⟨url,credentials,request,names,response,stores,_⟩⟩ := step_log moved
  · exact ok.advanced (step_cleared ok.cleared regular moved) log silent
  · exact absurd stores (storeless url credentials request names response)

theorem Orderly.fetched (ok : c.Orderly crates owner) {hop : Hop} {headers : HeaderMap}
    (regular : c.Regular crates owner (.fetch hop headers))
    (taken : c.step crates (.fetch hop headers) = some c') : c'.Orderly crates owner := by
  rcases step_cases taken with ⟨action,booked⟩ | ⟨a,cache,action,moved,booked⟩
  · simp only [cacheAction] at action
    simp only [book] at booked
    split_ifs at action with looks
    rw [if_neg looks] at booked
    split_ifs at booked
    · cases booked
      exact ok
    · cases booked
      exact ok.spawn (Task.recorded_unlooking (by simp) (by simp [Stage.revalidating]))
  · have regular := regular a action
    simp only [cacheAction] at action
    simp only [book] at booked
    split_ifs at action with looks
    cases action
    rw [if_pos looks] at booked
    cases booked
    refine (ok.section regular moved (by simp)).spawn ⟨?_,by simp [Stage.revalidating]⟩
    intro lookup looking
    cases looking
    cases moved
    obtain ⟨inside,found⟩ := @lookup_log crates.digest128 c.cache hop.url hop.credentials
      (finalHeaders (effectiveMode hop.cacheMode headers (requestControl headers)) headers)
    exact ⟨inside,fun k target vary asked => ⟨_,regular k vary (found k target vary asked)⟩⟩

theorem Orderly.decided (ok : c.Orderly crates owner) {id : Nat} {now : SystemTime}
    (taken : c.step crates (.decide id now) = some c') : c'.Orderly crates owner := by
  obtain ⟨t,found,decided⟩ := Option.bind_eq_some_iff.mp taken
  have recorded := ok.tasks t (task_mem found)
  cases stage : t.stage with
  | looking lookup =>
    simp only [stage] at decided
    obtain ⟨answer,read,decided⟩ := Option.map_eq_some_iff.mp decided
    have answered := answerOf_mem read
    cases answer with
    | none =>
      cases decided
      exact ok.proceed t (by simp)
    | some stored =>
      cases decided
      exact ok.decideStored ⟨recorded.asked lookup stage,answered⟩ now
  | ready _ => simp [stage] at decided
  | sending _ _ _ _ => simp [stage] at decided
  | received _ _ _ _ _ _ => simp [stage] at decided

theorem Orderly.sent (ok : c.Orderly crates owner) {id : Nat} {now : SystemTime}
    (taken : c.step crates (.send id now) = some c') : c'.Orderly crates owner := by
  obtain ⟨t,found,sent⟩ := Option.bind_eq_some_iff.mp taken
  have recorded := ok.tasks t (task_mem found)
  cases stage : t.stage with
  | ready revalidating =>
    simp only [stage] at sent
    cases sent
    refine ok.setStage t (by simp) ?_
    intro lookup stored revalidates
    exact recorded.answered lookup stored (by rw [stage]; exact revalidates)
  | looking _ => simp [stage] at sent
  | sending _ _ _ _ => simp [stage] at sent
  | received _ _ _ _ _ _ => simp [stage] at sent

theorem Orderly.received (ok : c.Orderly crates owner) {id : Nat} {result : Option NetResult}
    {now : SystemTime} (taken : c.step crates (.receive id result now) = some c') :
    c'.Orderly crates owner := by
  obtain ⟨t,found,received⟩ := Option.bind_eq_some_iff.mp taken
  have recorded := ok.tasks t (task_mem found)
  cases stage : t.stage with
  | sending revalidating headers requestTime sentAt =>
    simp only [stage] at received
    cases result with
    | none =>
      cases received
      exact ok.finish t
    | some net =>
      cases received
      refine ok.setStage t (by simp) ?_
      intro lookup stored revalidates
      exact recorded.answered lookup stored (by rw [stage]; exact revalidates)
  | looking _ => simp [stage] at received
  | ready _ => simp [stage] at received
  | received _ _ _ _ _ _ => simp [stage] at received

theorem Orderly.filed (ok : c.Orderly crates owner) {t : Task} (inside : t ∈ c.tasks) {source : Source}
    {url : Url} {credentials : Bool} {request : HeaderMap} {names : List String}
    {response : StoredResponse} (files : t.filing = some (.store url credentials request names response,source))
    (regular : c.cache.Regular crates.digest128 owner (.store url credentials request names response))
    {cache : System}
    (moved : c.cache.step crates.digest128 (.store url credentials request names response) = some cache)
    (sentAt : Nat) : ({c with
      cache := cache
      filed := c.filed ++ [⟨c.cache.log.length,sentAt,source⟩]} : NetworkCore).Orderly crates owner := by
  have cleared := step_cleared ok.cleared regular moved
  cases moved
  refine ok.stored cleared rfl sentAt ?_
  intro lookup notModified from304
  rcases t.filing_cases files with ⟨net,fresh⟩ | ⟨lookup',stored,notModified',t₁,t₂,revalidates,same,act⟩
  · rw [fresh] at from304
    cases from304
  · rw [same] at from304
    cases from304
    refine ⟨stored,((ok.tasks t inside).answered lookup stored revalidates).2,?_⟩
    unfold storeRevalidated at act
    simp only at act
    split at act
    · cases act
      exact ⟨rfl,rfl,rfl⟩
    · cases act

theorem Orderly.stepped (ok : c.Orderly crates owner) {id : Nat} (regular : c.Regular crates owner (.advance id))
    (taken : c.step crates (.advance id) = some c') : c'.Orderly crates owner := by
  rcases step_cases taken with ⟨action,booked⟩ | ⟨a,cache,action,moved,booked⟩
  · obtain ⟨t,found,booked⟩ := Option.bind_eq_some_iff.mp booked
    cases stage : t.stage with
    | looking _ => simp [stage] at booked
    | ready _ => simp [stage] at booked
    | sending _ _ _ _ => simp [stage] at booked
    | received revalidating net requestTime responseTime sentAt invalidations =>
      cases invalidations with
      | cons url rest => simp [NetworkCore.cacheAction,found,stage] at action
      | nil =>
        have none : t.filing.map Prod.fst = none := by
          simpa [NetworkCore.cacheAction,found,stage] using action
        simp only [stage,Option.map_eq_none_iff] at none booked
        rw [none] at booked
        cases booked
        exact ok.conclude (ok.tasks t (task_mem found))
  · have regular := regular a action
    obtain ⟨t,found,action⟩ := Option.bind_eq_some_iff.mp action
    obtain ⟨t',found',booked⟩ := Option.bind_eq_some_iff.mp booked
    cases (Option.some.inj (found.symm.trans found') : t = t')
    cases stage : t.stage with
    | looking _ => simp [stage] at booked
    | ready _ => simp [stage] at booked
    | sending _ _ _ _ => simp [stage] at booked
    | received revalidating net requestTime responseTime sentAt invalidations =>
      cases invalidations with
      | cons url rest =>
        simp only [stage] at action booked
        cases action
        cases booked
        have later := ok.section regular moved (by simp)
        have staged : (({c with cache := cache} : NetworkCore).setStage t (.received revalidating net
            requestTime responseTime sentAt rest)).Orderly crates owner := by
          refine later.setStage t (by simp) ?_
          intro lookup stored revalidates
          exact (later.tasks t (task_mem found)).answered lookup stored (by rw [stage]; exact revalidates)
        exact staged.retasked rfl rfl staged.tasks fun _ listed => .inl listed
      | nil =>
        simp only [stage] at action booked
        obtain ⟨⟨a',source⟩,files,rfl⟩ := Option.map_eq_some_iff.mp action
        rw [files] at booked
        cases a' with
        | store url credentials request names response =>
          cases booked
          have later := ok.filed (task_mem found) files regular moved sentAt
          exact later.conclude (later.tasks t (task_mem found))
        | _ =>
          cases booked
          have later := ok.section regular moved (by simp)
          exact later.conclude (later.tasks t (task_mem found))

theorem step_orderly (ok : c.Orderly crates owner) {move : Move} (regular : c.Regular crates owner move)
    (taken : c.step crates move = some c') : c'.Orderly crates owner := by
  cases move with
  | cache a =>
    obtain ⟨cache,moved,booked⟩ := Option.bind_eq_some_iff.mp taken
    simp only [book] at booked
    split_ifs at booked with internal
    cases booked
    refine ok.section (regular a rfl) moved ?_
    rintro url credentials request names response rfl
    cases internal
  | fetch hop headers => exact ok.fetched regular taken
  | decide id now => exact ok.decided taken
  | send id now => exact ok.sent taken
  | receive id result now => exact ok.received taken
  | advance id => exact ok.stepped regular taken

theorem Orderly.servesStored (ok : c.Orderly crates owner) : c.ServesStored :=
  ⟨fun serving listed => (ok.renews serving listed).2,ok.merges⟩

end NetworkCore

/-- In every run whose digests do not collide and whose generations do not wrap, a
lookup after an invalidation is served what was stored after it. -/
theorem serves_stored (crates : Crates) (owner : Key → Key) (dir : Bool) (memoryBudget diskBudget : Nat)
    (saved : Option IndexSnapshot) (lists : ∀ snapshot, saved = some snapshot → snapshot.Lists owner)
    (files : Path → Option EntryFile) (moves : List Move)
    (guarded : Runs.Guarded (NetworkCore.step crates) (NetworkCore.Regular crates owner)
      (NetworkCore.new (System.opened dir memoryBudget diskBudget saved files)) moves) :
    Runs.Always (NetworkCore.step crates) NetworkCore.ServesStored
      (NetworkCore.new (System.opened dir memoryBudget diskBudget saved files)) moves := by
  have start : (NetworkCore.new (System.opened dir memoryBudget diskBudget saved files)).Orderly crates owner := by
    refine ⟨opened_cleared dir memoryBudget diskBudget lists files,?_,?_,?_,?_⟩
    · intro i k g w stored
      have empty : (System.opened dir memoryBudget diskBudget saved files).log = [] := by
        cases dir <;> rfl
      simp [NetworkCore.new,empty] at stored
    · intro filing listed
      cases listed
    · intro t inside
      cases inside
    · intro serving listed
      cases listed
  exact Runs.always_of_guarded _ (fun _ _ _ ok regular taken => NetworkCore.step_orderly ok regular taken)
    (fun _ ok => ok.servesStored) start guarded

end Steps

instance regularDecidable (crates : Crates) (owner : Key → Key) (c : NetworkCore) (move : Move) :
    Decidable (c.Regular crates owner move) :=
  have (s : System) : ∀ a, Decidable (s.Regular crates.digest128 owner a)
    | .store _ _ _ _ _ => inferInstanceAs (Decidable ((_ < _) ∧ _))
    | .lookup url credentials request =>
      match found : s.index.variantOf crates.digest128 (primaryKey crates.digest128 url credentials) request with
      | none => isTrue (by intro k vary here; rw [found] at here; cases here)
      | some (k,_) => decidable_of_iff (owner k = primaryKey crates.digest128 url credentials) (by
          simp [System.Regular,found])
    | .read _ _ | .resume _ | .invalidate _ | .saveIndex | .send _ | .cleanup _ | .write _ | .done
    | .beginDelete | .delete _ | .persist _ => isTrue trivial
  inferInstanceAs (Decidable (∀ a ∈ c.cacheAction move,c.cache.Regular crates.digest128 owner a))

namespace Sample

def crates : Crates := ⟨Cache.Sample.digest,fun _ => none,fun _ _ => none,fun _ _ => false⟩

def page : Hop := ⟨Cache.Sample.page,.get,true,.default⟩

def lasting (body : List UInt8) : NetResult := ⟨200,"HTTP/1.1",[("cache-control","max-age=60")],body⟩

def outdated (etag : String) (body : List UInt8) : NetResult :=
  ⟨200,"HTTP/1.1",[("cache-control","max-age=0"),("etag",etag)],body⟩

def start : NetworkCore := NetworkCore.new (System.opened false 8000 0 none fun _ => none)

/-- A response in flight is stored after the invalidation, and served. -/
def resurrected : List Move :=
  [.fetch page [],.decide 0 0,.send 0 0,
   .fetch {page with method := .post} [],.send 1 0,.receive 1 (some ⟨204,"HTTP/1.1",[],[]⟩) 0,.advance 1,
   .advance 1,
   .receive 0 (some (lasting [1])) 0,.advance 0,
   .fetch page [],.decide 2 0]

/-- A 304 for the first response arrives after the second was stored. -/
def overtaken : List Move :=
  [.fetch page [],.decide 0 0,.send 0 0,.receive 0 (some (outdated "1" [1])) 0,.advance 0,
   .fetch page [],.decide 1 1,.send 1 1,
   .fetch {page with cacheMode := .reload} [],.send 2 1,.receive 2 (some (outdated "2" [2])) 1,.advance 2,
   .receive 1 (some ⟨304,"HTTP/1.1",[],[]⟩) 1,.advance 1]

def filed (net : NetResult) (time : SystemTime) : StoredResponse :=
  ⟨Cache.Sample.page.target,net.status,net.version,net.headers,[],time,time,net.body⟩

theorem serves_and_stores_outdated :
    ¬ Runs.Always (NetworkCore.step crates) NetworkCore.ForgetsOld start resurrected ∧
      ¬ Runs.Always (NetworkCore.step crates) NetworkCore.ForgetsOld start overtaken := by
  constructor
  · intro always
    have ran : (Runs.exec (NetworkCore.step crates) start resurrected).map (fun c =>
        (c.served,c.unsafeAt,c.cache.log[1]?,c.filed)) =
        some ([⟨3,5,Cache.Sample.page,filed (lasting [1]) 0⟩],[1],some (.invalidated Cache.Sample.page),
          [⟨2,1,.received (lasting [1])⟩]) := by
      rfl
    obtain ⟨final,reached,equal⟩ := Option.map_eq_some_iff.mp ran
    simp only [Prod.mk.injEq] at equal
    obtain ⟨served,positions,invalidated,stores⟩ := equal
    have forgets := (Runs.always_final _ always reached).served
    obtain ⟨filing,listed,later,_⟩ := forgets _ (by rw [served]; exact List.mem_singleton.mpr rfl) 1
      (by rw [positions]; exact List.mem_singleton.mpr rfl) Cache.Sample.page invalidated rfl (by decide)
    rw [stores,List.mem_singleton] at listed
    rw [listed] at later
    exact Nat.lt_irrefl 1 later
  · intro always
    have ran : (Runs.exec (NetworkCore.step crates) start overtaken).map (fun c =>
        (c.filed.contains ⟨5,4,.revalidated 2 []⟩,c.cache.log[4]?,c.cache.log[5]?)) =
        some (true,some (.stored Cache.Sample.key 2 (filed (outdated "2" [2]) 1)),
          some (.stored Cache.Sample.key 3 (filed (outdated "1" [1]) 1))) := by
      rfl
    obtain ⟨final,reached,equal⟩ := Option.map_eq_some_iff.mp ran
    simp only [Prod.mk.injEq] at equal
    obtain ⟨listed,newer,older⟩ := equal
    have forgets := (Runs.always_final _ always reached).replaced
    exact forgets _ (List.contains_iff_mem.mp listed) 2 [] rfl 4 _ _ _ 2 _ (by decide) (by decide) older newer

theorem serves_stored_resurrected :
    Runs.Always (NetworkCore.step crates) NetworkCore.ServesStored start resurrected :=
  serves_stored crates (fun _ => Cache.Sample.key) false 8000 0 none (by simp) (fun _ => none) resurrected
    (by decide)

end Sample

end Sharko.Netstack.Fetch
