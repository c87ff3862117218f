import Sharko.Netstack.Cache.Deletions
import Sharko.Netstack.Cache.Flight

/-! What backs the entries of the index: a pending write is on its way and the
file of a slot stays what it is, as long as no store draws a generation in use. -/

namespace Sharko.Netstack.Cache
open Library

def System.Unused (s : System) (k : Key) (g : Generation) : Prop :=
  s.Free k g ∧ ¬ Doomed s (k,g) ∧
    ∀ e d, s.index.entries.lookup k = some e → e.disk = some d → d.generation ≠ g

structure Lasting (s : System) (p : Path) : Prop where
  unwritten : writesOf p s.jobs = [] ∧ ∀ v result, s.writer ≠ .wrote p.1 p.2 v result
  undeleted : ¬ Doomed s p
  known : ∀ keep, s.cleanup = some keep → keep p = true

def Legible (s : System) (r : Read) : Prop :=
  ∀ v, r.result = some (.stored v) → (s.files (r.vkey,r.generation)).map readEntry = some v

structure Backed (s : System) (k : Key) (e : Entry) : Prop where
  paired : e.pendingWrite = none → e.pendingValue = none
  pending : ∀ g, e.pendingWrite = some g →
    (∃ w, e.pendingValue = some w ∧ Awaited s k g w) ∧ ¬ Doomed s (k,g) ∧
      ∀ r ∈ s.reads, r.vkey = k → r.generation ≠ g
  apart : ∀ g d, e.pendingWrite = some g → e.disk = some d → d.generation ≠ g
  slot : ∀ d, e.disk = some d → Lasting s (k,d.generation) ∧
    ∀ r ∈ s.reads, r.vkey = k → r.generation = d.generation → Legible s r

structure Sure (s : System) : Prop where
  /-- The cleanup runs before the writer's first job. -/
  first : s.writer ≠ .idle → s.cleanup = none
  entries : ∀ k e, s.index.entries.lookup k = some e → Backed s k e

def Unnamed (entries : FiniteMap Key Entry) (p : Path) : Prop :=
  ∀ e, entries.lookup p.1 = some e → e.pendingWrite ≠ some p.2 ∧ ∀ d, e.disk = some d → d.generation ≠ p.2

section Carry
variable {s s' : System}

theorem Released.unnamed {before after : FiniteMap Key Entry} {deletes : List Path}
    (released : Released before after deletes) (smaller : Within after before)
    (apart : ∀ k e, before.lookup k = some e → ∀ g d, e.pendingWrite = some g → e.disk = some d →
      d.generation ≠ g) : ∀ p ∈ deletes, Unnamed after p := by
  intro p inside e' here
  obtain ⟨⟨e,d,was,held,named⟩,free⟩ := released p inside
  obtain ⟨e₁,before₁,within⟩ := smaller p.1 e' here
  rw [was] at before₁
  cases before₁
  refine ⟨?_,?_⟩
  · intro pending
    rw [within.pendingWrite] at pending
    exact apart p.1 e was p.2 d pending held named
  · intro d' slot
    rw [free e' here] at slot
    cases slot

theorem Backed.carry {k : Key} {e e' : Entry} (ok : Backed s k e) (smaller : e'.Within e)
    (slots : ∀ d', e'.disk = some d' → Lasting s (k,d'.generation) →
      Lasting s' (k,d'.generation) ∧ s'.files (k,d'.generation) = s.files (k,d'.generation))
    (pendings : ∀ g w, e'.pendingWrite = some g → Awaited s k g w → ¬ Doomed s (k,g) →
      Awaited s' k g w ∧ ¬ Doomed s' (k,g)) (reads : ∀ r ∈ s'.reads, r.vkey = k → r ∈ s.reads ∨
      (∀ g, e'.pendingWrite = some g → r.generation ≠ g) ∧
        ∀ d', e'.disk = some d' → r.generation = d'.generation → Legible s' r) : Backed s' k e' := by
  refine ⟨?_,?_,?_,?_⟩
  · intro idle
    rw [smaller.pendingValue]
    exact ok.paired (smaller.pendingWrite ▸ idle)
  · intro g pending
    obtain ⟨⟨w,value,awaited⟩,undeleted,unread⟩ := ok.pending g (smaller.pendingWrite ▸ pending)
    obtain ⟨awaited',undeleted'⟩ := pendings g w pending awaited undeleted
    refine ⟨⟨w,smaller.pendingValue.trans value,awaited'⟩,undeleted',?_⟩
    intro r inside same
    rcases reads r inside same with before | ⟨unread',_⟩
    · exact unread r before same
    · exact unread' g pending
  · intro g d' pending held
    obtain ⟨d,was,equal⟩ := smaller.disk d' held
    rw [← equal]
    exact ok.apart g d (smaller.pendingWrite ▸ pending) was
  · intro d' held
    obtain ⟨d,was,equal⟩ := smaller.disk d' held
    obtain ⟨lasting,legible⟩ := ok.slot d was
    rw [equal] at lasting legible
    obtain ⟨lasting',file⟩ := slots d' held lasting
    refine ⟨lasting',?_⟩
    intro r inside same generation
    rcases reads r inside same with before | ⟨_,legible'⟩
    · intro v read
      rw [same,generation,file,← generation,← same]
      exact legible r before same generation v read
    · exact legible' d' held generation

def Fitting (s : System) (r : Read) (e : Entry) : Prop :=
  (∀ g, e.pendingWrite = some g → r.generation ≠ g) ∧
    ∀ d, e.disk = some d → r.generation = d.generation → Legible s r

theorem Backed.fitting {k : Key} {e : Entry} (ok : Backed s k e) {r : Read} (inside : r ∈ s.reads)
    (same : r.vkey = k) : Fitting s r e :=
  ⟨fun g pending => (ok.pending g pending).2.2 r inside same,
    fun d held generation => (ok.slot d held).2 r inside same generation⟩

/-- After a section that files nothing new, the entries that are left are backed
if it queued no deletion of a file they name. -/
theorem Issued.sure {deletes : List Path} (issued : Issued s s' deletes) (ok : Sure s)
    (entries : ∀ k e', s'.index.entries.lookup k = some e' → ∃ e, Backed s k e ∧ e'.Within e)
    (unnamed : ∀ p ∈ deletes, Unnamed s'.index.entries p) (reads : ∀ r ∈ s'.reads, r ∈ s.reads ∨
      ∀ e', s'.index.entries.lookup r.vkey = some e' → Fitting s' r e') : Sure s' := by
  obtain ⟨writer,cleanup,files⟩ := issued.same
  refine ⟨by rw [writer,cleanup]; exact ok.first,?_⟩
  intro k e' here
  obtain ⟨e,backed,smaller⟩ := entries k e' here
  have undeleted : ∀ g, ¬ Doomed s (k,g) →
      e'.pendingWrite = some g ∨ (∃ d', e'.disk = some d' ∧ d'.generation = g) → ¬ Doomed s' (k,g) := by
    intro g before named doomed
    rcases issued.doomed (k,g) doomed with was | given
    · exact before was
    · obtain ⟨unpended,slotless⟩ := unnamed (k,g) given e' here
      rcases named with pending | ⟨d',held,generation⟩
      · exact unpended pending
      · exact slotless d' held generation
  refine backed.carry smaller ?_ ?_ ?_
  · intro d' held lasting
    refine ⟨⟨⟨?_,?_⟩,?_,?_⟩,by rw [files]⟩
    · have same := issued.jobs (k,d'.generation)
      rw [lasting.unwritten.1] at same
      exact List.perm_nil.mp same
    · rw [writer]
      exact lasting.unwritten.2
    · exact undeleted _ lasting.undeleted (.inr ⟨d',held,rfl⟩)
    · rw [cleanup]
      exact lasting.known
  · intro g w pending awaited before
    exact ⟨issued.awaited awaited,undeleted g before (.inl pending)⟩
  · intro r inside same
    rcases reads r inside with before | fitting
    · exact .inl before
    · subst same
      exact .inr (fitting e' here)

theorem Sure.within (ok : Sure s) {entries : FiniteMap Key Entry} (smaller : Within entries s.index.entries) :
    ∀ k e', entries.lookup k = some e' → ∃ e, Backed s k e ∧ e'.Within e := by
  intro k e' here
  obtain ⟨e,before,within⟩ := smaller k e' here
  exact ⟨e,ok.entries k e before,within⟩

theorem Sure.unnamed (ok : Sure s) {entries : FiniteMap Key Entry} {deletes : List Path}
    (smaller : Within entries s.index.entries) (released : Released s.index.entries entries deletes) :
    ∀ p ∈ deletes, Unnamed entries p :=
  released.unnamed smaller fun k e before => (ok.entries k e before).apart

theorem Sure.took (ok : Sure s) (index : Index) (deletes : List Path) {reads : List Read}
    (fewer : ∀ r ∈ reads, r ∈ s.reads) (log : List Event) (smaller : Within index.entries s.index.entries)
    (released : Released s.index.entries index.entries deletes) : Sure {s with
      index := index
      outbox := s.outbox ++ [System.deleteJobs deletes]
      reads := reads
      log := log} := by
  have issued := issued_jobs s index reads log fun p => writesOf_deleteJobs p deletes
  refine issued.sure ok (ok.within smaller) ?_ fun r inside => .inl (fewer r inside)
  rw [deletesOf_deleteJobs]
  exact ok.unnamed smaller released

end Carry

variable {digest128 : List UInt8 → Key} {s s' : System}

theorem lookup_sure (ok : Sure s) (url : Url) (credentials : Bool) (request : HeaderMap) :
    Sure (s.lookup digest128 url credentials request) := by
  have still : ∀ (index : Index) (log : List Event), Within index.entries s.index.entries →
      Sure {s with index := index, log := log} := by
    intro index log smaller
    exact (issued_index s index s.reads log).sure ok (ok.within smaller) (by simp)
      fun r inside => .inl inside
  unfold System.lookup
  cases found : s.index.variantOf digest128 (primaryKey digest128 url credentials) request with
  | none =>
    simp only [found]
    exact still s.index _ (Within.refl _)
  | some variant =>
    obtain ⟨k,vary⟩ := variant
    have smaller := Index.lookup_within digest128 s.index (primaryKey digest128 url credentials)
      url.target request
    simp only [found]
    rcases Index.lookup_decision found url.target with
      miss | ⟨e,value,present,resident,target,values,hit⟩ | ⟨e,d,present,absent,held,read⟩
    · rw [miss]
      exact still _ _ smaller
    · rw [hit]
      exact still _ _ smaller
    · rw [read]
      simp only
      split_ifs
      · refine (issued_index s _ (s.reads ++ [⟨s.log.length,url.target,k,vary,d.generation,none⟩]) _).sure
          ok (ok.within smaller) (by simp) ?_
        intro r inside
        rcases List.mem_append.mp inside with before | new
        · exact .inl before
        · cases List.mem_singleton.mp new
          right
          intro e' here
          obtain ⟨e₀,before,within⟩ := smaller k e' here
          rw [present] at before
          cases before
          refine ⟨?_,?_⟩
          · intro g pending
            exact (ok.entries k e present).apart g d (within.pendingWrite ▸ pending) held
          · intro d' _ _ v result
            cases result
      · exact still _ _ smaller

theorem read_sure (ok : Sure s) (id : Nat) (outcome : Outcome) :
    Sure {s with reads := s.reads.map (s.finishRead id outcome)} := by
  refine (issued_index s s.index (s.reads.map (s.finishRead id outcome)) s.log).sure ok
    (ok.within (Within.refl _)) (by simp) ?_
  intro r' inside
  obtain ⟨r,before,rfl⟩ := List.mem_map.mp inside
  by_cases finished : r.id = id ∧ r.result = none
  · right
    rw [System.finishRead,if_pos finished]
    intro e here
    refine ⟨((ok.entries r.vkey e here).fitting before rfl).1,?_⟩
    intro d _ _ v result
    cases outcome with
    | intact =>
      cases file : s.files (r.vkey,r.generation) with
      | none => simp [System.readFile,file] at result
      | some f => simpa [System.readFile,file] using result
    | unreadable => simp [System.readFile] at result
    | failed => simp [System.readFile] at result
  · left
    rw [System.finishRead,if_neg finished]
    exact before

theorem resume_sure (ok : Sure s) (r : Read) (result : ReadResult) (id : Nat) :
    Sure ({s with reads := s.reads.filter fun r => r.id != id}.resume r result) := by
  have fewer : ∀ r ∈ s.reads.filter fun r => r.id != id, r ∈ s.reads :=
    fun r inside => List.mem_of_mem_filter inside
  have missed : Sure ({s with reads := s.reads.filter fun r => r.id != id}.answer r.id none) :=
    (issued_index s s.index _ _).sure ok (ok.within (Within.refl _)) (by simp)
      fun r inside => .inl (fewer r inside)
  unfold System.resume
  cases result with
  | stored v =>
    simp only
    split_ifs
    · refine (issued_jobs s _ _ _ fun p => writesOf_deleteJobs p _).sure ok ?_ ?_
        fun r inside => .inl (fewer r inside)
      · intro k e' here
        rcases Index.promote_entry here with ⟨e,before,smaller⟩ | ⟨rfl,_,e,d,n,present,_,_,_,smaller⟩
        · exact ⟨e,ok.entries k e before,smaller⟩
        · have backed := ok.entries r.vkey e present
          exact ⟨{e with mem := some ⟨v,v.weight,n⟩},
            ⟨backed.paired,backed.pending,backed.apart,backed.slot⟩,smaller⟩
      · rw [deletesOf_deleteJobs,Index.promote_deletes]
        intro p inside
        cases inside
    · exact missed
  | unreadable =>
    exact ok.took _ _ fewer _ (Index.dropUnreadable_within s.index r.vkey r.generation)
      (Index.dropUnreadable_released s.index r.vkey r.generation)
  | failed => exact missed

theorem store_unnamed (ok : Sure s) (url : Url) (credentials : Bool) (request : HeaderMap)
    (names : List String) (response : StoredResponse)
    (unused : s.Unused (storeKey digest128 url credentials request names) s.index.generation.1) :
    ∀ p ∈ (s.index.store s.limits s.disk (primaryKey digest128 url credentials) names
      (storeKey digest128 url credentials request names) (response.filed url names request)).2.1,
      Unnamed (s.store digest128 url credentials request names response).index.entries p := by
  intro p given e' here
  rw [Index.store_deletes] at given
  obtain ⟨⟨e,d,was,held,named⟩,slotless⟩ := Index.place_released _ _ _ _ _ _ _ p given
  have entry := Index.store_entry here
  refine ⟨?_,?_⟩
  · intro pending
    split_ifs at entry with own
    · rw [entry.pendingWrite,(Index.placed_waiting _ _ _ _ _ _).1] at pending
      split_ifs at pending
      rw [own] at was
      exact unused.2.2 e d was held (named.trans (Option.some.inj pending).symm)
    · obtain ⟨e₁,before,smaller⟩ := entry
      rw [was] at before
      cases before
      exact (ok.entries p.1 e was).apart p.2 d (smaller.pendingWrite ▸ pending) held named
  · intro d' slot
    have placed := Index.store_within s.index s.limits s.disk (primaryKey digest128 url credentials) names
      (storeKey digest128 url credentials request names) (response.filed url names request)
    rw [placed.no_slot slotless e' here] at slot
    cases slot

theorem store_sure (ok : Sure s) (url : Url) (credentials : Bool) (request : HeaderMap)
    (names : List String) (response : StoredResponse)
    (unused : s.Unused (storeKey digest128 url credentials request names) s.index.generation.1) :
    Sure (s.store digest128 url credentials request names response) := by
  have unnamed := store_unnamed ok url credentials request names response unused
  have doomed : ∀ p, Doomed _ p → _ := fun p => store_doomed digest128 url credentials request names
    response s
  have elsewhere : ∀ p, p ≠ _ → _ := fun p => store_elsewhere digest128 url credentials request names
    response s
  have awaited : ∀ j g w, (j,g) ≠ _ → Awaited s j g w → Awaited _ j g w := fun j g w =>
    store_awaited digest128 url credentials request names response s
  have issues := fun onDisk =>
    store_issues digest128 url credentials request names response s onDisk unused.1
  have entry : ∀ j e', (s.store digest128 url credentials request names response).index.entries.lookup
      j = some e' → _ := fun j e' here => Index.store_entry here
  have body : (response.filed url names request).body = response.body := rfl
  have waiting := Index.placed_waiting s.index s.limits s.disk (primaryKey digest128 url credentials)
    (storeKey digest128 url credentials request names) (response.filed url names request)
  rw [body] at waiting
  have same : (s.store digest128 url credentials request names response).files = s.files ∧
      (s.store digest128 url credentials request names response).writer = s.writer ∧
      (s.store digest128 url credentials request names response).cleanup = s.cleanup ∧
      (s.store digest128 url credentials request names response).reads = s.reads := ⟨rfl,rfl,rfl,rfl⟩
  obtain ⟨files,writer,cleanup,reads⟩ := same
  generalize s.store digest128 url credentials request names response = s' at *
  generalize response.filed url names request = v at *
  generalize storeKey digest128 url credentials request names = k at *
  generalize primaryKey digest128 url credentials = primary at *
  have undeleted : ∀ j e' g, s'.index.entries.lookup j = some e' → ¬ Doomed s (j,g) →
      e'.pendingWrite = some g ∨ (∃ d', e'.disk = some d' ∧ d'.generation = g) → ¬ Doomed s' (j,g) := by
    intro j e' g here before named gone
    rcases doomed (j,g) gone with was | given
    · exact before was
    · obtain ⟨unpended,slotless⟩ := unnamed (j,g) given e' here
      rcases named with pending | ⟨d',held,generation⟩
      · exact unpended pending
      · exact slotless d' held generation
  have lasting : ∀ j e' d', s'.index.entries.lookup j = some e' → e'.disk = some d' →
      (j,d'.generation) ≠ (k,s.index.generation.1) → Lasting s (j,d'.generation) →
      Lasting s' (j,d'.generation) := by
    intro j e' d' here held other before
    refine ⟨⟨?_,by rw [writer]; exact before.unwritten.2⟩,
      undeleted j e' _ here before.undeleted (.inr ⟨d',held,rfl⟩),by rw [cleanup]; exact before.known⟩
    have kept := elsewhere (j,d'.generation) other
    rw [before.unwritten.1] at kept
    exact List.perm_nil.mp kept
  refine ⟨by rw [writer,cleanup]; exact ok.first,?_⟩
  intro j e' here
  have change := entry j e' here
  split_ifs at change with own
  · subst own
    obtain ⟨write,value,slot⟩ := waiting
    refine ⟨?_,?_,?_,?_⟩
    · intro idle
      rw [change.pendingWrite,write] at idle
      rw [change.pendingValue,value]
      split_ifs at idle ⊢
      rfl
    · intro g pending
      have issued := pending
      rw [change.pendingWrite,write] at issued
      split_ifs at issued with onDisk
      cases issued
      refine ⟨⟨v,?_,issues onDisk⟩,undeleted j e' _ here unused.2.1 (.inl pending),?_⟩
      · rw [change.pendingValue,value,if_pos onDisk]
      · rw [reads]
        exact unused.1.2.2
    · intro g d' pending held
      rw [change.pendingWrite,write] at pending
      obtain ⟨d,was,equal⟩ := change.disk d' held
      rw [slot] at was
      split_ifs at pending was
      cases pending
      rw [← equal]
      unfold Index.oldEntry at was
      cases present : s.index.entries.lookup j with
      | none => simp [present] at was
      | some e =>
        rw [present] at was
        exact unused.2.2 e d present was
    · intro d' held
      obtain ⟨d,was,equal⟩ := change.disk d' held
      rw [slot] at was
      split_ifs at was
      unfold Index.oldEntry at was
      cases present : s.index.entries.lookup j with
      | none => simp [present] at was
      | some e =>
        rw [present] at was
        obtain ⟨before,legible⟩ := (ok.entries j e present).slot d was
        rw [equal] at before legible
        have other : (j,d'.generation) ≠ (j,s.index.generation.1) := by
          intro same
          exact unused.2.2 e d present was (equal.trans (Prod.mk.inj same).2)
        refine ⟨lasting j e' d' here held other before,?_⟩
        intro r inside named generation
        rw [reads] at inside
        intro u read
        rw [files]
        exact legible r inside named generation u read
  · obtain ⟨e,before,smaller⟩ := change
    have other : ∀ g, (j,g) ≠ (k,s.index.generation.1) := fun g equal => own (Prod.mk.inj equal).1
    refine (ok.entries j e before).carry smaller ?_ ?_ (fun r inside _ => .inl (reads ▸ inside))
    · intro d' held kept
      exact ⟨lasting j e' d' here held (other _) kept,by rw [files]⟩
    · intro g w pending waits kept
      exact ⟨awaited j g w (other g) waits,undeleted j e' g here kept (.inl pending)⟩

theorem write_sure (ok : Sure s) {k : Key} {g : Generation} {v : StoredResponse} {rest : List Job}
    (idle : s.writer = .idle) (clean : s.cleanup = none) (head : s.queue = .write k g v :: rest)
    (metaLen : Option Nat) : Sure (s.performWrite k g v rest metaLen) := by
  refine ⟨fun _ => clean,?_⟩
  intro j e here
  refine (ok.entries j e here).carry (Entry.Within.refl e) ?_ ?_ fun r inside _ => .inl inside
  · intro d held lasting
    have other : (j,d.generation) ≠ (k,g) := by
      intro equal
      have issued := performWrite_jobs head none (j,d.generation)
      rw [lasting.unwritten.1,if_pos equal.symm] at issued
      simpa using issued.length_eq
    refine ⟨⟨⟨?_,?_⟩,?_,lasting.known⟩,performWrite_file metaLen other⟩
    · have kept := performWrite_elsewhere head metaLen other
      rw [lasting.unwritten.1] at kept
      exact List.nil_perm.mp kept
    · intro u result wrote
      cases wrote
      exact other rfl
    · exact fun doomed => lasting.undeleted (performWrite_doomed head doomed)
  · intro g' w _ awaited undeleted
    exact ⟨performWrite_awaited idle head metaLen awaited,
      fun doomed => undeleted (performWrite_doomed head doomed)⟩

theorem shuffled_sure (ok : Sure s) (shuffled : Shuffled s s') : Sure s' := by
  have clean : s.cleanup = none → s'.cleanup = none := by
    intro done
    cases left : s'.cleanup with
    | none => rfl
    | some keep =>
      rw [shuffled.clean keep left] at done
      cases done
  refine ⟨?_,?_⟩
  · intro working
    apply clean
    rcases shuffled.busy working with before | done
    · exact ok.first before
    · exact done
  · intro k e here
    rw [shuffled.index] at here
    refine (ok.entries k e here).carry (Entry.Within.refl e) ?_ ?_
      (fun r inside _ => .inl (shuffled.reads ▸ inside))
    · intro d held lasting
      refine ⟨⟨⟨?_,?_⟩,?_,?_⟩,shuffled.spared _ lasting.known lasting.undeleted⟩
      · have same := shuffled.jobs (k,d.generation)
        rw [lasting.unwritten.1] at same
        exact List.perm_nil.mp same
      · intro v result wrote
        exact lasting.unwritten.2 v result ((shuffled.writer _ _ v result).mp wrote)
      · exact fun doomed => lasting.undeleted (shuffled.doomed _ doomed)
      · exact fun keep left => lasting.known keep (shuffled.clean keep left)
    · intro g w _ awaited undeleted
      exact ⟨shuffled.awaited awaited,fun doomed => undeleted (shuffled.doomed _ doomed)⟩

theorem done_unnamed (ok : Sure s) {k : Key} {g : Generation} {v : StoredResponse}
    {result : Option Nat} (wrote : s.writer = .wrote k g v result) :
    ∀ p ∈ (s.index.onWriteDone s.limits k g result).2,
      Unnamed (s.index.onWriteDone s.limits k g result).1.entries p := by
  intro p given
  rw [Index.onWriteDone_deletes] at given
  cases now : s.index.current k g with
  | false =>
    -- The write was overtaken: only its own file goes.
    rw [now] at given
    cases result with
    | none => cases given
    | some size =>
      cases List.mem_singleton.mp given
      intro e here
      have here' : s.index.entries.lookup k = some e := by
        simpa [Index.onWriteDone,now] using here
      refine ⟨?_,?_⟩
      · intro pending
        rw [(Index.current_iff s.index k g).mpr ⟨e,here',pending⟩] at now
        cases now
      · intro d held same
        have lasting := ((ok.entries k e here').slot d held).1
        rw [same] at lasting
        exact lasting.unwritten.2 v _ wrote
  | true =>
    obtain ⟨e,present,pending⟩ := (Index.current_iff s.index k g).mp now
    rw [now,if_pos rfl] at given
    cases result with
    | none => cases given
    | some size =>
      have committed := Index.commitWrite_lookup present g size
      have index : (s.index.onWriteDone s.limits k g (some size)).1 =
          ((s.index.commitWrite k g size).1.evictDisk s.limits (s.index.commitWrite k g size).2).1 := by
        simp [Index.onWriteDone,now]
      obtain ⟨files,grown,released⟩ := Index.evictDisk_released (s.index.commitWrite k g size).1 s.limits
        (s.index.commitWrite k g size).2
      have smaller := Index.evictDisk_within (s.index.commitWrite k g size).1 s.limits
        (s.index.commitWrite k g size).2
      rw [index]
      have given' : p ∈ (s.index.commitWrite k g size).2 ++ files := grown ▸ given
      rcases List.mem_append.mp given' with old | evicted
      · rw [Index.commitWrite_deletes present] at old
        obtain ⟨d,held,rfl⟩ := Option.map_eq_some_iff.mp (Option.mem_toList.mp old)
        have apart := (ok.entries k e present).apart g d pending held
        intro e' here
        obtain ⟨e₁,before,within⟩ := smaller k e' here
        rw [committed,if_pos rfl] at before
        cases before
        refine ⟨?_,?_⟩
        · rw [within.pendingWrite]
          simp
        · intro d' slot same
          obtain ⟨d₁,was,equal⟩ := within.disk d' slot
          cases was
          exact apart (same.symm.trans equal.symm)
      · refine released.unnamed smaller ?_ p evicted
        intro j e₁ before g' d pending' held
        rw [committed] at before
        split_ifs at before
        · cases before
          cases pending'
        · exact (ok.entries j e₁ before).apart g' d pending' held

theorem done_sure (ok : Sure s) {k : Key} {g : Generation} {v : StoredResponse}
    {result : Option Nat} (wrote : s.writer = .wrote k g v result) : Sure (s.finishWrite k g result) := by
  have unnamed := done_unnamed ok wrote
  have clean : s.cleanup = none := ok.first (by rw [wrote]; simp)
  have undeleted : ∀ j e' g', (s.finishWrite k g result).index.entries.lookup j = some e' →
      ¬ Doomed s (j,g') → e'.pendingWrite = some g' ∨ (∃ d', e'.disk = some d' ∧ d'.generation = g') →
      ¬ Doomed (s.finishWrite k g result) (j,g') := by
    intro j e' g' here before named gone
    rcases finishWrite_doomed gone with was | given
    · exact before was
    · obtain ⟨unpended,slotless⟩ := unnamed (j,g') given e' here
      rcases named with pending | ⟨d',held,generation⟩
      · exact unpended pending
      · exact slotless d' held generation
  refine ⟨fun _ => clean,?_⟩
  intro j e' here
  obtain ⟨e,before,change⟩ := Index.onWriteDone_entry here
  have backed := ok.entries j e before
  have lasting : ∀ d', e'.disk = some d' → Lasting s (j,d'.generation) →
      Lasting (s.finishWrite k g result) (j,d'.generation) := by
    intro d' held kept
    exact ⟨⟨kept.unwritten.1,by intro u r equal; cases equal⟩,
      undeleted j e' _ here kept.undeleted (.inr ⟨d',held,rfl⟩),kept.known⟩
  split_ifs at change with own
  · obtain ⟨rfl,pending⟩ := own
    obtain ⟨n,smaller⟩ := change
    obtain ⟨⟨w,_,awaited⟩,kept,unread⟩ := backed.pending g pending
    obtain ⟨issued,_,file⟩ := awaited.reported wrote
    refine ⟨?_,?_,?_,?_⟩
    · intro _
      rw [smaller.pendingValue]
    · intro g' pending'
      rw [smaller.pendingWrite] at pending'
      cases pending'
    · intro g' d pending'
      rw [smaller.pendingWrite] at pending'
      cases pending'
    · intro d' held
      obtain ⟨d,was,equal⟩ := smaller.disk d' held
      cases result with
      | none =>
        obtain ⟨old,legible⟩ := backed.slot d was
        rw [equal] at old legible
        exact ⟨lasting d' held old,legible⟩
      | some size =>
        cases was
        rw [← equal]
        refine ⟨⟨⟨issued,by intro u r same; cases same⟩,undeleted j e' g here kept
          (.inr ⟨d',held,equal.symm⟩),?_⟩,?_⟩
        · intro keep left
          have left' : s.cleanup = some keep := left
          rw [clean] at left'
          cases left'
        · intro r inside named generation
          exact absurd generation (unread r inside named)
  · refine backed.carry change (fun d' held kept => ⟨lasting d' held kept,rfl⟩) ?_
      (fun r inside _ => .inl inside)
    intro g' w pending awaited kept
    refine ⟨finishWrite_awaited wrote ?_ awaited,undeleted j e' g' here kept (.inl pending)⟩
    intro equal
    obtain ⟨rfl,rfl⟩ := Prod.mk.inj equal
    exact own ⟨rfl,change.pendingWrite ▸ pending⟩

theorem opened_sure (dir : Bool) (memoryBudget diskBudget : Nat) (saved : Option IndexSnapshot)
    (files : Path → Option EntryFile) : Sure (System.opened dir memoryBudget diskBudget saved files) := by
  cases dir with
  | false =>
    refine ⟨fun _ => rfl,?_⟩
    intro k e here
    simp [System.opened,Index.new] at here
  | true =>
    have smaller := Index.evictDisk_within (Index.load (Index.loadIndex saved))
      (Limits.ofBudgets memoryBudget diskBudget) []
    obtain ⟨given,grown,released⟩ := Index.evictDisk_released (Index.load (Index.loadIndex saved))
      (Limits.ofBudgets memoryBudget diskBudget) []
    rw [List.nil_append] at grown
    refine ⟨fun working => absurd rfl working,?_⟩
    intro k e here
    obtain ⟨e₀,before,within⟩ := smaller k e here
    obtain ⟨_,write,value⟩ := Index.load_idle before
    refine ⟨fun _ => within.pendingValue.trans value,?_,?_,?_⟩
    · intro g pending
      rw [within.pendingWrite,write] at pending
      cases pending
    · intro g d pending
      rw [within.pendingWrite,write] at pending
      cases pending
    · intro d held
      obtain ⟨d₀,was,equal⟩ := within.disk d held
      refine ⟨⟨⟨writesOf_deleteJobs _ _,by intro v r equal; cases equal⟩,?_,?_⟩,by simp [System.opened]⟩
      · rintro (inside | ⟨paths,deleting,_⟩)
        · have inside' : (k,d.generation) ∈ deletesOf (System.deleteJobs
              ((Index.load (Index.loadIndex saved)).evictDisk
                (Limits.ofBudgets memoryBudget diskBudget) []).2) := inside
          rw [deletesOf_deleteJobs,grown] at inside'
          have slotless := (released _ inside').2 e here
          rw [held] at slotless
          cases slotless
        · cases deleting
      · intro keep kept
        cases kept
        simp [System.known,before,was,equal]

theorem step_sure (ok : Sure s) {a : Action} (taken : s.step digest128 a = some s')
    (unused : ∀ url credentials request names response, a = .store url credentials request names response →
      s.Unused (storeKey digest128 url credentials request names) s.index.generation.1) : Sure s' := by
  cases a with
  | lookup url credentials request =>
    cases taken
    exact lookup_sure ok url credentials request
  | read id outcome =>
    cases taken
    exact read_sure ok id outcome
  | resume id =>
    cases found : s.reads.find? fun r => r.id == id with
    | none => simp [System.step,found] at taken
    | some r =>
      simp only [System.step,found] at taken
      obtain ⟨result,_,rfl⟩ := Option.map_eq_some_iff.mp taken
      exact resume_sure ok r result id
  | store url credentials request names response =>
    cases taken
    exact store_sure ok url credentials request names response (unused url credentials request names response rfl)
  | invalidate url =>
    cases taken
    exact ok.took _ _ (fun r inside => inside) _ (Index.invalidate_within digest128 s.index url s.disk)
      (Index.invalidate_released digest128 s.index url s.disk)
  | saveIndex =>
    simp only [System.step] at taken
    split_ifs at taken
    · cases taken
      have issued := issued_jobs s s.index.snapshot.2 s.reads s.log fun p =>
        (rfl : writesOf p [.saveIndex s.index.snapshot.1] = [])
      exact issued.sure ok (ok.within (Within.refl _)) (by simp [deletesOf]) fun r inside => .inl inside
    · cases taken
      exact ok
  | write metaLen =>
    simp only [System.step] at taken
    split at taken
    · rename_i k g v rest idle clean head
      cases taken
      exact write_sure ok idle clean head metaLen
    · cases taken
  | done =>
    simp only [System.step] at taken
    split at taken
    · rename_i k g v result wrote
      cases taken
      exact done_sure ok wrote
    · cases taken
  | send _ => exact shuffled_sure ok (channel_shuffled taken trivial)
  | cleanup _ => exact shuffled_sure ok (channel_shuffled taken trivial)
  | beginDelete => exact shuffled_sure ok (channel_shuffled taken trivial)
  | delete _ => exact shuffled_sure ok (channel_shuffled taken trivial)
  | persist _ => exact shuffled_sure ok (channel_shuffled taken trivial)

end Sharko.Netstack.Cache
