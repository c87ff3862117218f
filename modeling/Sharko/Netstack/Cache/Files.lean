import Mathlib
import Sharko.Netstack.Cache.Accounting

/-! The entry files on the disk and the index, over the runs of the cache with its
writer: once the writer is through, the files are the ones the slots name, but for
those whose deletion the file system refused. -/

namespace Sharko.Netstack.Cache
open Library

def System.refusals (s : System) : Action → List Path
  | .cleanup stuck => (s.cleanup.map fun keep => stuck.filter fun p => !keep p).getD []
  | .delete false =>
    match s.writer with
    | .deleting (path :: _) => [path]
    | _ => []
  | _ => []

def System.refused (digest128 : List UInt8 → Key) : System → List Action → List Path
  | _,[] => []
  | s,a :: rest =>
    s.refusals a ++ ((s.step digest128 a).map fun next => System.refused digest128 next rest).getD []

structure System.Drained (s : System) : Prop where
  clean : s.cleanup = none
  queue : s.queue = []
  outbox : ∀ box ∈ s.outbox, box = []
  writer : s.writer = .idle

/-- The files are the ones of the slots, apart from refused deletions and from
slots whose file was not there when the cache was opened. -/
structure System.FilesMatch (start : System) (refused : List Path) (s : System) : Prop where
  file : ∀ p, (s.files p).isSome → Named s.index.entries p ∨ p ∈ refused
  slot : ∀ p, Named s.index.entries p →
    (s.files p).isSome ∨ Named start.index.entries p ∧ start.files p = none

structure Tallied (missing : Path → Prop) (refused : List Path) (s : System) : Prop where
  tier : s.disk = true
  file : ∀ p, (s.files p).isSome → Named s.index.entries p ∨ Doomed s p ∨
    (∃ v n, s.writer = .wrote p.1 p.2 v (some n)) ∨
    (∃ keep, s.cleanup = some keep ∧ keep p = false) ∨ p ∈ refused
  slot : ∀ p, Named s.index.entries p → (s.files p).isSome ∨ missing p
  wrote : ∀ k g v n, s.writer = .wrote k g v (some n) → (s.files (k,g)).isSome

section Steps
variable {digest128 : List UInt8 → Key} {missing : Path → Prop} {refused deletes : List Path}
  {s s' : System}

theorem doomed_queued (index : Index) (reads : List Read) (log : List Event) (jobs : List Job) {p : Path}
    (doomed : Doomed s p ∨ p ∈ deletesOf jobs) :
    Doomed {s with index := index, outbox := s.outbox ++ [jobs], reads := reads, log := log} p := by
  have queued : (deletesOf (System.jobs {s with outbox := s.outbox ++ [jobs]})).Perm
      (deletesOf (s.jobs ++ jobs)) := (jobs_queued s jobs).flatMap_right _
  rcases doomed with (inside | deleting) | given
  · refine .inl (queued.mem_iff.mpr ?_)
    rw [deletesOf,List.flatMap_append]
    exact List.mem_append_left _ inside
  · exact .inr deleting
  · refine .inl (queued.mem_iff.mpr ?_)
    rw [deletesOf,List.flatMap_append]
    exact List.mem_append_right _ given

theorem Tallied.took (ok : Tallied missing refused s) (tier : s'.disk = s.disk)
    (same : s'.writer = s.writer ∧ s'.cleanup = s.cleanup ∧ s'.files = s.files)
    (doomed : ∀ p, Doomed s p ∨ p ∈ deletes → Doomed s' p)
    (named : ∀ p, Named s'.index.entries p → Named s.index.entries p)
    (accounted : Accounted s.index.entries s'.index.entries deletes) : Tallied missing refused s' := by
  obtain ⟨writer,cleanup,files⟩ := same
  refine ⟨tier.trans ok.tier,?_,?_,?_⟩
  · intro p present
    rw [files] at present
    rw [writer,cleanup]
    rcases ok.file p present with was | gone | writing | unknown | given
    · rcases accounted p was with kept | given
      · exact .inl kept
      · exact .inr (.inl (doomed p (.inr given)))
    · exact .inr (.inl (doomed p (.inl gone)))
    · exact .inr (.inr (.inl writing))
    · exact .inr (.inr (.inr (.inl unknown)))
    · exact .inr (.inr (.inr (.inr given)))
  · intro p here
    rw [files]
    exact ok.slot p (named p here)
  · rw [writer,files]
    exact ok.wrote

theorem Tallied.issue (ok : Tallied missing refused s) (index : Index) (reads : List Read)
    (log : List Event) {jobs : List Job} (named : ∀ p, Named index.entries p → Named s.index.entries p)
    (accounted : Accounted s.index.entries index.entries (deletesOf jobs)) : Tallied missing refused
      {s with index := index, outbox := s.outbox ++ [jobs], reads := reads, log := log} :=
  ok.took rfl ⟨rfl,rfl,rfl⟩ (fun _ doomed => doomed_queued index reads log jobs doomed) named accounted

theorem Tallied.index (ok : Tallied missing refused s) (index : Index) (reads : List Read)
    (log : List Event) (smaller : Within index.entries s.index.entries)
    (accounted : Accounted s.index.entries index.entries []) :
    Tallied missing refused {s with index := index, reads := reads, log := log} :=
  ok.took rfl ⟨rfl,rfl,rfl⟩ (fun _ doomed => doomed.resolve_right List.not_mem_nil)
    (fun _ here => smaller.named here) accounted

theorem lookup_tallied (ok : Tallied missing refused s) (url : Url) (credentials : Bool)
    (request : HeaderMap) : Tallied missing refused (s.lookup digest128 url credentials request) := by
  have smaller := Index.lookup_within digest128 s.index (primaryKey digest128 url credentials)
    url.target request
  have accounted := Index.lookup_accounted digest128 s.index (primaryKey digest128 url credentials)
    url.target request
  unfold System.lookup
  cases found : s.index.variantOf digest128 (primaryKey digest128 url credentials) request with
  | none =>
    simp only [found]
    exact ok.index s.index s.reads _ (Within.refl _) (Accounted.refl _)
  | some variant =>
    obtain ⟨k,vary⟩ := variant
    simp only [found]
    rcases Index.lookup_decision found url.target with
      miss | ⟨e,value,_,_,_,_,hit⟩ | ⟨e,d,_,_,_,read⟩
    · rw [miss]
      exact ok.index _ s.reads _ smaller accounted
    · rw [hit]
      exact ok.index _ s.reads _ smaller accounted
    · rw [read]
      simp only
      split_ifs
      · exact ok.index _ _ _ smaller accounted
      · exact ok.index _ s.reads _ smaller accounted

theorem resume_tallied (ok : Tallied missing refused s) (r : Read) (result : ReadResult) (id : Nat) :
    Tallied missing refused ({s with reads := s.reads.filter fun r => r.id != id}.resume r result) := by
  have missed : Tallied missing refused
      ({s with reads := s.reads.filter fun r => r.id != id}.answer r.id none) :=
    ok.index s.index _ _ (Within.refl _) (Accounted.refl _)
  unfold System.resume
  cases result with
  | stored v =>
    simp only
    split_ifs
    · refine ok.issue _ _ _ ?_ ?_
      · rintro p ⟨e',d',here,held,generation⟩
        rcases Index.promote_entry here with ⟨e,before,smaller⟩ | ⟨own,_,e,_,n,present,_,_,_,smaller⟩
        · obtain ⟨d,slot,same⟩ := smaller.disk d' held
          exact ⟨e,d,before,slot,same.trans generation⟩
        · obtain ⟨d,slot,same⟩ := smaller.disk d' held
          exact ⟨e,d,own ▸ present,slot,same.trans generation⟩
      · rw [deletesOf_deleteJobs,Index.promote_deletes]
        exact Index.promote_accounted s.index s.limits s.disk r.vkey r.generation v
    · exact missed
  | unreadable =>
    refine ok.issue _ _ _ (fun p here => (Index.dropUnreadable_within s.index r.vkey r.generation).named here) ?_
    rw [deletesOf_deleteJobs]
    exact Index.dropUnreadable_accounted s.index r.vkey r.generation
  | failed => exact missed

theorem store_tallied (ok : Tallied missing refused s) (url : Url) (credentials : Bool)
    (request : HeaderMap) (names : List String) (response : StoredResponse) :
    Tallied missing refused (s.store digest128 url credentials request names response) := by
  have accounted := Index.store_accounted s.index s.limits ok.tier (primaryKey digest128 url credentials)
    names (storeKey digest128 url credentials request names) (response.filed url names request)
  rw [store_eq]
  refine ok.issue _ s.reads _ (fun p here => Index.store_named here) ?_
  have write : ∀ issued : Bool, deletesOf (if issued then
      [.write (storeKey digest128 url credentials request names) s.index.generation.1
        (response.filed url names request)] else []) = [] := by
    intro issued
    cases issued <;> rfl
  rw [deletesOf_append,deletesOf_deleteJobs,write,List.append_nil]
  exact accounted

theorem write_tallied (ok : Tallied missing refused s) {k : Key} {g : Generation} {v : StoredResponse}
    {rest : List Job} (idle : s.writer = .idle) (head : s.queue = .write k g v :: rest)
    (metaLen : Option Nat) : Tallied missing refused (s.performWrite k g v rest metaLen) := by
  have kept : ∀ p, (s.files p).isSome → ((s.performWrite k g v rest metaLen).files p).isSome := by
    intro p present
    by_cases own : p = (k,g)
    · subst own
      cases metaLen with
      | none => exact present
      | some n => simp [System.performWrite]
    · rwa [performWrite_file metaLen own]
  have doomed : ∀ p, Doomed s p → Doomed (s.performWrite k g v rest metaLen) p := by
    rintro p (inside | ⟨paths,deleting,_⟩)
    · left
      simpa [System.jobs,System.performWrite,head,deletesOf] using inside
    · rw [idle] at deleting
      cases deleting
  have own : ∀ p, ((s.performWrite k g v rest metaLen).files p).isSome → (s.files p).isSome ∨
      ∃ v' n, (s.performWrite k g v rest metaLen).writer = .wrote p.1 p.2 v' (some n) := by
    intro p present
    by_cases own : p = (k,g)
    · subst own
      cases metaLen with
      | none => exact .inl present
      | some n => exact .inr ⟨v,_,rfl⟩
    · rw [performWrite_file metaLen own] at present
      exact .inl present
  refine ⟨ok.tier,?_,?_,?_⟩
  · intro p present
    rcases own p present with before | writing
    · rcases ok.file p before with was | gone | ⟨_,_,writing⟩ | unknown | given
      · exact .inl was
      · exact .inr (.inl (doomed p gone))
      · rw [idle] at writing
        cases writing
      · exact .inr (.inr (.inr (.inl unknown)))
      · exact .inr (.inr (.inr (.inr given)))
    · exact .inr (.inr (.inl writing))
  · intro p here
    exact (ok.slot p here).imp_left (kept p)
  · intro k' g' v' n equal
    cases metaLen with
    | none => cases equal
    | some m =>
      cases equal
      simp [System.performWrite]

theorem done_tallied (ok : Tallied missing refused s) (sure : Sure s) {k : Key} {g : Generation}
    {v : StoredResponse} {result : Option Nat} (wrote : s.writer = .wrote k g v result) :
    Tallied missing refused (s.finishWrite k g result) := by
  obtain ⟨accounted,own⟩ := Index.onWriteDone_accounted s.index s.limits k g result
  have given : ∀ p ∈ (s.index.onWriteDone s.limits k g result).2, Doomed (s.finishWrite k g result) p :=
    fun p inside => .inr ⟨_,rfl,inside⟩
  have clean : s.cleanup = none := sure.first (by rw [wrote]; simp)
  refine ⟨ok.tier,?_,?_,?_⟩
  · intro p present
    rcases ok.file p present with was | gone | ⟨v',n,writing⟩ | ⟨keep,left,_⟩ | refusal
    · exact (accounted p was).imp_right fun inside => .inl (given p inside)
    · rcases gone with inside | ⟨paths,deleting,_⟩
      · exact .inr (.inl (.inl inside))
      · rw [wrote] at deleting
        cases deleting
    · rw [wrote] at writing
      cases writing
      exact (own rfl).imp_right fun inside => .inl (given _ inside)
    · rw [clean] at left
      cases left
    · exact .inr (.inr (.inr (.inr refusal)))
  · intro p here
    rcases Index.onWriteDone_named here with before | ⟨rfl,succeeded⟩
    · exact ok.slot p before
    · obtain ⟨n,rfl⟩ := Option.isSome_iff_exists.mp succeeded
      exact .inl (ok.wrote k g v n wrote)
  · intro k' g' v' n equal
    cases equal

theorem channel_tallied (ok : Tallied missing refused s) (sure : Sure s) {a : Action}
    (taken : s.step digest128 a = some s') (channel : a.Channel) :
    Tallied missing (refused ++ s.refusals a) s' := by
  have shuffled := channel_shuffled taken channel
  have named : ∀ p, Named s'.index.entries p → Named s.index.entries p := by
    intro p here
    rwa [shuffled.index] at here
  have slot : ∀ p, Named s'.index.entries p → (s'.files p).isSome ∨ missing p := by
    intro p here
    obtain ⟨e,d,present,held,generation⟩ := named p here
    have lasting := ((sure.entries p.1 e present).slot d held).1
    rw [generation] at lasting
    rw [shuffled.spared p lasting.known lasting.undeleted]
    exact ok.slot p (named p here)
  have wrote : ∀ k g v n, s'.writer = .wrote k g v (some n) → (s'.files (k,g)).isSome := by
    intro k g v n writing
    have before := (shuffled.writer k g v (some n)).mp writing
    rw [shuffled.kept k g v n before]
    exact ok.wrote k g v n before
  refine ⟨shuffled.disk.trans ok.tier,?_,slot,wrote⟩
  -- What is left to show is where the files that are still there come from.
  have origin : ∀ p, (s'.files p).isSome → Named s.index.entries p ∨ Doomed s p ∨
      (∃ v n, s.writer = .wrote p.1 p.2 v (some n)) ∨
      (∃ keep, s.cleanup = some keep ∧ keep p = false) ∨ p ∈ refused := by
    intro p present
    obtain ⟨f,found⟩ := Option.isSome_iff_exists.mp present
    exact ok.file p (by rw [shuffled.files p f found]; rfl)
  intro p present
  rw [shuffled.index]
  rcases origin p present with here | doomed | ⟨v,n,writing⟩ | unknown | refusal
  · exact .inl here
  · right
    cases a with
    | send caller =>
      cases found : s.outbox[caller]? with
      | none => simp [System.step,found] at taken
      | some jobs =>
        cases jobs with
        | nil => simp [System.step,found] at taken
        | cons job rest =>
          simp only [System.step,found] at taken
          cases taken
          left
          rcases doomed with inside | deleting
          · exact .inl (((sent_perm found s.queue).flatMap_right _).mem_iff.mpr inside)
          · exact .inr deleting
    | cleanup stuck =>
      simp only [System.step] at taken
      split at taken
      · cases taken
        exact .inl doomed
      · cases taken
    | beginDelete =>
      simp only [System.step] at taken
      split at taken
      · rename_i paths rest idle waiting head
        cases taken
        left
        rcases doomed with inside | ⟨paths',deleting,_⟩
        · have inside' : p ∈ deletesOf (s.outbox.flatten ++ .delete paths :: rest) := head ▸ inside
          rw [deletesOf_append] at inside'
          rcases List.mem_append.mp inside' with boxed | queued
          · left
            simp only [System.jobs,deletesOf_append]
            exact List.mem_append_left _ boxed
          · rcases List.mem_append.mp (show p ∈ paths ++ deletesOf rest from queued) with now | later
            · exact .inr ⟨paths,rfl,now⟩
            · left
              simp only [System.jobs,deletesOf_append]
              exact List.mem_append_right _ later
        · rw [idle] at deleting
          cases deleting
      · cases taken
    | delete removed =>
      simp only [System.step] at taken
      split at taken
      · rename_i deleting
        cases taken
        left
        rcases doomed with inside | ⟨paths,deleting',inside⟩
        · exact .inl inside
        · rw [deleting] at deleting'
          cases deleting'
          cases inside
      · rename_i path rest deleting
        cases taken
        rcases doomed with inside | ⟨paths,deleting',inside⟩
        · exact .inl (.inl inside)
        · rw [deleting] at deleting'
          cases deleting'
          rcases List.mem_cons.mp inside with rfl | later
          · -- The file whose turn it was is still there, so its deletion was refused.
            cases removed with
            | true => simp at present
            | false =>
              refine .inr (.inr (.inr (List.mem_append_right _ ?_)))
              simp [System.refusals,deleting]
          · exact .inl (.inr ⟨rest,rfl,later⟩)
      · cases taken
    | persist written =>
      simp only [System.step] at taken
      split at taken
      · rename_i snapshot rest idle waiting head
        cases taken
        left
        rcases doomed with inside | deleting
        · left
          simpa [System.jobs,head,deletesOf] using inside
        · exact .inr deleting
      · cases taken
    | lookup _ _ _ => exact channel.elim
    | read _ _ => exact channel.elim
    | resume _ => exact channel.elim
    | store _ _ _ _ _ => exact channel.elim
    | invalidate _ => exact channel.elim
    | saveIndex => exact channel.elim
    | write _ => exact channel.elim
    | done => exact channel.elim
  · exact .inr (.inr (.inl ⟨v,n,(shuffled.writer _ _ _ _).mpr writing⟩))
  · obtain ⟨keep,waiting,unknown⟩ := unknown
    cases left : s'.cleanup with
    | some keep' =>
      have same := shuffled.clean keep' left
      rw [waiting] at same
      cases same
      exact .inr (.inr (.inr (.inl ⟨keep,rfl,unknown⟩)))
    | none =>
      -- The cleanup ran; a file it does not know is one it could not delete.
      refine .inr (.inr (.inr (.inr (List.mem_append_right _ ?_))))
      cases a with
      | cleanup stuck =>
        simp only [System.step] at taken
        split at taken
        · rename_i keep' idle waiting'
          rw [waiting] at waiting'
          cases waiting'
          cases taken
          simp only [unknown,Bool.false_or] at present
          split_ifs at present with refusal
          · simpa [System.refusals,waiting,unknown] using refusal
          · cases present
        · cases taken
      | send caller =>
        simp only [System.step] at taken
        split at taken <;> cases taken
        rw [waiting] at left
        cases left
      | beginDelete =>
        simp only [System.step] at taken
        split at taken <;> cases taken
        rw [waiting] at left
        cases left
      | delete removed =>
        simp only [System.step] at taken
        split at taken <;> cases taken
        all_goals
          rw [waiting] at left
          cases left
      | persist written =>
        simp only [System.step] at taken
        split at taken <;> cases taken
        rw [waiting] at left
        cases left
      | lookup _ _ _ => exact channel.elim
      | read _ _ => exact channel.elim
      | resume _ => exact channel.elim
      | store _ _ _ _ _ => exact channel.elim
      | invalidate _ => exact channel.elim
      | saveIndex => exact channel.elim
      | write _ => exact channel.elim
      | done => exact channel.elim
  · exact .inr (.inr (.inr (.inr (List.mem_append_left _ refusal))))

theorem step_tallied (ok : Tallied missing refused s) (sure : Sure s) {a : Action}
    (taken : s.step digest128 a = some s') : Tallied missing (refused ++ s.refusals a) s' := by
  have unrefused : s.refusals a = [] → Tallied missing refused s' →
      Tallied missing (refused ++ s.refusals a) s' := by
    intro none kept
    rwa [none,List.append_nil]
  cases a with
  | lookup url credentials request =>
    cases taken
    exact unrefused rfl (lookup_tallied ok url credentials request)
  | read id outcome =>
    cases taken
    exact unrefused rfl (ok.index s.index _ s.log (Within.refl _) (Accounted.refl _))
  | resume id =>
    cases found : s.reads.find? fun r => r.id == id with
    | none => simp [System.step,found] at taken
    | some r =>
      simp only [System.step,found] at taken
      obtain ⟨result,_,rfl⟩ := Option.map_eq_some_iff.mp taken
      exact unrefused rfl (resume_tallied ok r result id)
  | store url credentials request names response =>
    cases taken
    exact unrefused rfl (store_tallied ok url credentials request names response)
  | invalidate url =>
    cases taken
    have accounted := Index.invalidate_accounted digest128 s.index url
    rw [← deletesOf_deleteJobs (Index.invalidate digest128 s.index url true).2,← ok.tier] at accounted
    have smaller := Index.invalidate_within digest128 s.index url s.disk
    exact unrefused rfl (ok.issue _ s.reads _ (fun p here => smaller.named here) accounted)
  | saveIndex =>
    simp only [System.step] at taken
    split_ifs at taken
    · cases taken
      have accounted : Accounted s.index.entries s.index.snapshot.2.entries
          (deletesOf [.saveIndex s.index.snapshot.1]) := Accounted.refl _
      exact unrefused rfl (ok.issue s.index.snapshot.2 s.reads s.log (fun p here => here) accounted)
    · cases taken
      exact unrefused rfl ok
  | write metaLen =>
    simp only [System.step] at taken
    split at taken
    · rename_i k g v rest idle clean head
      cases taken
      exact unrefused rfl (write_tallied ok idle head metaLen)
    · cases taken
  | done =>
    simp only [System.step] at taken
    split at taken
    · rename_i k g v result wrote
      cases taken
      exact unrefused rfl (done_tallied ok sure wrote)
    · cases taken
  | send _ => exact channel_tallied ok sure taken trivial
  | cleanup _ => exact channel_tallied ok sure taken trivial
  | beginDelete => exact channel_tallied ok sure taken trivial
  | delete _ => exact channel_tallied ok sure taken trivial
  | persist _ => exact channel_tallied ok sure taken trivial

def System.StoresUnwrapped (s : System) : Action → Prop
  | .store _ _ _ _ _ => s.Unwrapped
  | _ => True

theorem run_tallied {actions : List Action} {final : System} (ok : Tallied missing refused s)
    (sure : Sure s) (drawn : Drawn s)
    (guarded : Runs.Guarded (System.step digest128) System.StoresUnwrapped s actions)
    (ran : Runs.exec (System.step digest128) s actions = some final) :
    Tallied missing (refused ++ s.refused digest128 actions) final := by
  induction actions generalizing s refused with
  | nil =>
    cases ran
    simpa [System.refused] using ok
  | cons a rest ih =>
    obtain ⟨next,taken,after⟩ := Runs.exec_cons_success _ ran
    have unwrapped : ∀ url credentials request names response,
        a = .store url credentials request names response → s.Unwrapped := by
      rintro url credentials request names response rfl
      exact guarded.1
    have later := ih (step_tallied ok sure taken)
      (step_sure sure taken fun url credentials request names response same =>
        drawn.unused (unwrapped url credentials request names response same) _)
      (step_drawn drawn taken unwrapped) (guarded.2 next taken) after
    simpa [System.refused,taken] using later

theorem opened_tallied (memoryBudget diskBudget : Nat) (saved : Option IndexSnapshot)
    (files : Path → Option EntryFile) :
    Tallied (fun p => Named (System.opened true memoryBudget diskBudget saved files).index.entries p ∧
      files p = none) [] (System.opened true memoryBudget diskBudget saved files) := by
  obtain ⟨given,grown,accounted⟩ := Index.evictDisk_accounted (Index.load (Index.loadIndex saved))
    (Limits.ofBudgets memoryBudget diskBudget) []
  rw [List.nil_append] at grown
  refine ⟨rfl,?_,?_,?_⟩
  · intro p present
    cases known : System.known (Index.load (Index.loadIndex saved)) p with
    | false => exact .inr (.inr (.inr (.inl ⟨_,rfl,known⟩)))
    | true =>
      have named : Named (Index.load (Index.loadIndex saved)).entries p := by
        unfold System.known at known
        cases found : (Index.load (Index.loadIndex saved)).entries.lookup p.1 with
        | none => simp [found] at known
        | some e =>
          cases held : e.disk with
          | none => simp [found,held] at known
          | some d => exact ⟨e,d,found,held,by simpa [found,held] using known⟩
      rcases accounted p named with kept | gone
      · exact .inl kept
      · refine .inr (.inl (.inl ?_))
        have there : (System.opened true memoryBudget diskBudget saved files).jobs =
            System.deleteJobs ((Index.load (Index.loadIndex saved)).evictDisk
              (Limits.ofBudgets memoryBudget diskBudget) []).2 := rfl
        rw [there,deletesOf_deleteJobs,grown]
        exact gone
  · intro p here
    cases present : files p with
    | none => exact .inr ⟨here,rfl⟩
    | some f =>
      left
      show (files p).isSome
      rw [present]
      rfl
  · intro k g v n equal
    cases equal

end Steps

/-- Once the writer is through, the files are the ones of the slots. -/
theorem files_match (digest128 : List UInt8 → Key) (memoryBudget diskBudget : Nat)
    (saved : Option IndexSnapshot) (files : Path → Option EntryFile) (actions : List Action)
    (guarded : Runs.Guarded (System.step digest128) System.StoresUnwrapped
      (System.opened true memoryBudget diskBudget saved files) actions) (final : System)
    (ran : Runs.exec (System.step digest128) (System.opened true memoryBudget diskBudget saved files)
      actions = some final) (drained : final.Drained) :
    System.FilesMatch (System.opened true memoryBudget diskBudget saved files)
      ((System.opened true memoryBudget diskBudget saved files).refused digest128 actions) final := by
  have tallied := run_tallied (opened_tallied memoryBudget diskBudget saved files) (opened_sure ..)
    (opened_drawn ..) guarded ran
  have undoomed : ∀ p, ¬ Doomed final p := by
    rintro p (inside | ⟨paths,deleting,_⟩)
    · have empty : final.outbox.flatten = [] := List.flatten_eq_nil_iff.mpr drained.outbox
      rw [System.jobs,empty,drained.queue] at inside
      cases inside
    · rw [drained.writer] at deleting
      cases deleting
  refine ⟨?_,tallied.slot⟩
  intro p present
  rcases tallied.file p present with named | doomed | ⟨v,n,writing⟩ | ⟨keep,left,_⟩ | refusal
  · exact .inl named
  · exact absurd doomed (undoomed p)
  · rw [drained.writer] at writing
    cases writing
  · rw [drained.clean] at left
    cases left
  · exact .inr refusal

theorem named_iff {entries : FiniteMap Key Entry} {p : Path} :
    Named entries p ↔ ((entries.lookup p.1).bind Entry.disk).map DiskSlot.generation = some p.2 := by
  constructor
  · rintro ⟨e,d,here,held,generation⟩
    simp [here,held,generation]
  · intro named
    obtain ⟨d,slot,generation⟩ := Option.map_eq_some_iff.mp named
    obtain ⟨e,here,held⟩ := Option.bind_eq_some_iff.mp slot
    exact ⟨e,d,here,held,generation⟩

instance : DecidablePred System.Drained := fun s =>
  decidable_of_iff (s.cleanup.isNone ∧ s.queue = [] ∧ (∀ box ∈ s.outbox, box = []) ∧ s.writer = .idle)
    ⟨fun ⟨clean,queue,outbox,writer⟩ => ⟨Option.isNone_iff_eq_none.mp clean,queue,outbox,writer⟩,
      fun drained => ⟨by rw [drained.clean]; rfl,drained.queue,drained.outbox,drained.writer⟩⟩

namespace Sample

/-- A response replaces the one on the disk, and the old file is deleted or not. -/
def replaced (removed : Bool) : List Action :=
  [.cleanup [],.store page true [] [] large,.send 0,.write (some 10),.done,.delete removed,.delete true]

/-- The cache is opened again after a response was invalidated and its file
deleted, and before the index was saved. -/
def unsaved : List Action := [.cleanup [],.invalidate page,.send 0,.beginDelete,.delete true,.delete true]

theorem replaced_guarded (removed : Bool) :
    Runs.Guarded (System.step digest) System.StoresUnwrapped restarted (replaced removed) := by
  refine ⟨trivial,?_⟩
  intro s taken
  cases taken
  refine ⟨?_,fun _ _ => ⟨trivial,fun _ _ => ⟨trivial,fun _ _ => ⟨trivial,fun _ _ =>
    ⟨trivial,fun _ _ => ⟨trivial,fun _ _ => trivial⟩⟩⟩⟩⟩⟩
  change restarted.index.nextGeneration + 1 < 2 ^ 32
  decide

set_option maxRecDepth 20000 in
theorem files_match_replaced : ∃ final, Runs.exec (System.step digest) restarted (replaced true) = some final ∧
      System.FilesMatch restarted [] final := by
  have ran : (Runs.exec (System.step digest) restarted (replaced true)).map
      (fun s => decide s.Drained) = some true := by
    rfl
  have unrefused : restarted.refused digest (replaced true) = [] := by
    rfl
  obtain ⟨final,reached,drained⟩ := Option.map_eq_some_iff.mp ran
  have matching := files_match digest 3200 8000 _ _ (replaced true) (replaced_guarded true) final reached
    (of_decide_eq_true drained)
  refine ⟨final,reached,?_⟩
  rw [← unrefused]
  exact matching

set_option maxRecDepth 20000 in
/-- A refused deletion leaks a file, and an index that was not saved after a
deletion names a file that is gone. -/
theorem files_mismatch : (∃ final, Runs.exec (System.step digest) restarted (replaced false) = some final ∧
      final.Drained ∧ (final.files (key,1)).isSome ∧ ¬ Named final.index.entries (key,1)) ∧
    ∃ final next, Runs.exec (System.step digest) restarted unsaved = some final ∧
      Runs.exec (System.step digest) (System.opened true 3200 8000 final.saved final.files)
        [.cleanup []] = some next ∧
      next.Drained ∧ Named next.index.entries (key,1) ∧ next.files (key,1) = none := by
  constructor
  · have ran : (Runs.exec (System.step digest) restarted (replaced false)).map (fun s =>
        (decide s.Drained,(s.files (key,1)).isSome,
          ((s.index.entries.lookup key).bind Entry.disk).map DiskSlot.generation)) =
        some (true,true,some 2) := by
      rfl
    obtain ⟨final,reached,facts⟩ := Option.map_eq_some_iff.mp ran
    obtain ⟨drained,rest⟩ := Prod.mk.inj facts
    obtain ⟨present,slot⟩ := Prod.mk.inj rest
    refine ⟨final,reached,of_decide_eq_true drained,present,?_⟩
    rw [named_iff,slot]
    decide
  · have ran : (Runs.exec (System.step digest) restarted unsaved).bind (fun s =>
        (Runs.exec (System.step digest) (System.opened true 3200 8000 s.saved s.files)
          [.cleanup []]).map fun s => (decide s.Drained,(s.files (key,1)).isSome,
            ((s.index.entries.lookup key).bind Entry.disk).map DiskSlot.generation)) =
        some (true,false,some 1) := by
      rfl
    obtain ⟨final,reached,again⟩ := Option.bind_eq_some_iff.mp ran
    obtain ⟨next,reached',facts⟩ := Option.map_eq_some_iff.mp again
    obtain ⟨drained,rest⟩ := Prod.mk.inj facts
    obtain ⟨absent,slot⟩ := Prod.mk.inj rest
    refine ⟨final,next,reached,reached',of_decide_eq_true drained,?_,by simpa using absent⟩
    rw [named_iff,slot]

end Sample

end Sharko.Netstack.Cache
