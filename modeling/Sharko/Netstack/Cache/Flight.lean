import Sharko.Netstack.Cache.System
import Sharko.Netstack.Cache.Effects

/-! Writes, files and deletions in flight between the callers, the channel and the
writer thread, and what each step of the cache does to them. -/

namespace Sharko.Netstack.Cache
open Library

def writesOf (path : Path) (jobs : List Job) : List StoredResponse :=
  jobs.filterMap fun job => match job with
    | .write vkey generation value => if (vkey,generation) = path then some value else none
    | _ => none

def deletesOf (jobs : List Job) : List Path :=
  jobs.flatMap fun job => match job with
    | .delete paths => paths
    | _ => []

def System.jobs (s : System) : List Job := s.outbox.flatten ++ s.queue

def Doomed (s : System) (p : Path) : Prop :=
  p ∈ deletesOf s.jobs ∨ ∃ paths, s.writer = .deleting paths ∧ p ∈ paths

/-- The file of a variant and generation, if it is there, is the one of the
value, and no write of it is to come. -/
structure Settled (s : System) (k : Key) (g : Generation) (w : StoredResponse) : Prop where
  file : ∀ f, s.files (k,g) = some f → f = writeEntry w
  written : writesOf (k,g) s.jobs = []

/-- The one write of a variant and generation is on its way, or done and about to
be reported. -/
def Awaited (s : System) (k : Key) (g : Generation) (w : StoredResponse) : Prop :=
  (writesOf (k,g) s.jobs = [w] ∧ ∀ v result, s.writer ≠ .wrote k g v result) ∨
    writesOf (k,g) s.jobs = [] ∧ ∃ result, s.writer = .wrote k g w result ∧
      (result.isSome → s.files (k,g) = some (writeEntry w))

/-- A reader of a generation reads or has read the file of the value. -/
structure Reads (s : System) (r : Read) (w : StoredResponse) : Prop where
  settled : Settled s r.vkey r.generation w
  result : ∀ v, r.result = some (.stored v) → v = readEntry (writeEntry w)

def System.Free (s : System) (k : Key) (g : Generation) : Prop :=
  writesOf (k,g) s.jobs = [] ∧ (∀ v result, s.writer ≠ .wrote k g v result) ∧
    ∀ r ∈ s.reads, r.vkey = k → r.generation ≠ g

/-- A resumed lookup would put the response it read beside a pending write, in
the place of the newer value. -/
def System.PromotesOutdated (s : System) (r : Read) : Prop :=
  ∃ response, r.result = some (.stored response) ∧
    (response.url = r.target ∧ response.vary = r.vary) ∧
    response.weight ≤ s.limits.memEntryMax ∧
    ∃ e, s.index.entries.lookup r.vkey = some e ∧ e.mem = none ∧
      (∃ d, e.disk = some d ∧ d.generation = r.generation) ∧ e.pendingWrite ≠ none

theorem lookup_append {log : List Event} (events : List Event) {i : Nat} (inside : i < log.length) :
    (log ++ events)[i]? = log[i]? ∧ (log ++ events).take i = log.take i :=
  ⟨List.getElem?_append_left inside,List.take_append_of_le_length inside.le⟩

theorem writesOf_append (p : Path) (first second : List Job) :
    writesOf p (first ++ second) = writesOf p first ++ writesOf p second :=
  List.filterMap_append

theorem deletesOf_append (first second : List Job) :
    deletesOf (first ++ second) = deletesOf first ++ deletesOf second :=
  List.flatMap_append

@[simp] theorem writesOf_deleteJobs (p : Path) (paths : List Path) :
    writesOf p (System.deleteJobs paths) = [] := by
  unfold System.deleteJobs
  split_ifs <;> rfl

@[simp] theorem deletesOf_deleteJobs (paths : List Path) :
    deletesOf (System.deleteJobs paths) = paths := by
  unfold System.deleteJobs
  split_ifs with empty
  · rw [List.isEmpty_iff.mp empty]
    rfl
  · simp [deletesOf]

theorem jobs_queued (s : System) (jobs : List Job) :
    (System.jobs {s with outbox := s.outbox ++ [jobs]}).Perm (s.jobs ++ jobs) := by
  simp only [System.jobs,List.flatten_append,List.flatten_singleton,List.append_assoc]
  exact (List.perm_append_comm).append_left _

theorem sent_perm {boxes : List (List Job)} {n : Nat} {job : Job} {rest : List Job}
    (found : boxes[n]? = some (job :: rest)) (queue : List Job) :
    ((boxes.set n rest).flatten ++ (queue ++ [job])).Perm (boxes.flatten ++ queue) := by
  have taken : (job :: (boxes.set n rest).flatten).Perm boxes.flatten := by
    induction boxes generalizing n with
    | nil => simp at found
    | cons box boxes ih =>
      cases n with
      | zero =>
        cases found
        exact List.Perm.refl _
      | succ n =>
        have moved := ih (n := n) (by simpa using found)
        exact List.perm_middle.symm.trans (moved.append_left box)
  have last : ((boxes.set n rest).flatten ++ (queue ++ [job])).Perm
      (job :: ((boxes.set n rest).flatten ++ queue)) := by
    rw [← List.append_assoc]
    exact List.perm_append_singleton _ _
  exact last.trans (taken.append_right queue)

/-- The same writes are in flight with the same files, and no file is new. -/
structure Quiet (s s' : System) : Prop where
  jobs : ∀ p, (writesOf p s'.jobs).Perm (writesOf p s.jobs)
  writer : ∀ k g v result, s'.writer = .wrote k g v result ↔ s.writer = .wrote k g v result
  files : ∀ p f, s'.files p = some f → s.files p = some f
  kept : ∀ k g v n, s.writer = .wrote k g v (some n) → s'.files (k,g) = s.files (k,g)

section Quiet
variable {s s' : System}

theorem Quiet.settled (quiet : Quiet s s') {k : Key} {g : Generation} {w : StoredResponse}
    (ok : Settled s k g w) : Settled s' k g w where
  file f found := ok.file f (quiet.files (k,g) f found)
  written := by
    have same := quiet.jobs (k,g)
    rw [ok.written] at same
    exact List.perm_nil.mp same

theorem Quiet.awaited (quiet : Quiet s s') {k : Key} {g : Generation} {w : StoredResponse}
    (ok : Awaited s k g w) : Awaited s' k g w := by
  have same := quiet.jobs (k,g)
  rcases ok with ⟨issued,unwritten⟩ | ⟨issued,result,wrote,file⟩
  · rw [issued] at same
    refine .inl ⟨List.perm_singleton.mp same,?_⟩
    intro v result wrote
    exact unwritten v result ((quiet.writer k g v result).mp wrote)
  · rw [issued] at same
    refine .inr ⟨List.perm_nil.mp same,result,(quiet.writer k g w result).mpr wrote,?_⟩
    intro succeeded
    obtain ⟨n,rfl⟩ := Option.isSome_iff_exists.mp succeeded
    rw [quiet.kept k g w n wrote]
    exact file succeeded

theorem quiet_index (s : System) (index : Index) (reads : List Read) (log : List Event) :
    Quiet s {s with index := index, reads := reads, log := log} where
  jobs _ := List.Perm.refl _
  writer _ _ _ _ := Iff.rfl
  files _ _ found := found
  kept _ _ _ _ _ := rfl

theorem quiet_issue (s : System) (index : Index) (reads : List Read) (log : List Event)
    {jobs : List Job} (silent : ∀ p, writesOf p jobs = []) :
    Quiet s {s with index := index, outbox := s.outbox ++ [jobs], reads := reads, log := log} where
  jobs p := by
    have queued := (jobs_queued s jobs).filterMap (fun job => match job with
      | .write vkey generation value => if (vkey,generation) = p then some value else none
      | _ => none)
    have none := silent p
    unfold writesOf at none
    rw [List.filterMap_append,none,List.append_nil] at queued
    exact queued
  writer _ _ _ _ := Iff.rfl
  files _ _ found := found
  kept _ _ _ _ _ := rfl

structure Issued (s s' : System) (deletes : List Path) : Prop extends Quiet s s' where
  same : s'.writer = s.writer ∧ s'.cleanup = s.cleanup ∧ s'.files = s.files
  doomed : ∀ p, Doomed s' p → Doomed s p ∨ p ∈ deletes

theorem issued_index (s : System) (index : Index) (reads : List Read) (log : List Event) :
    Issued s {s with index := index, reads := reads, log := log} [] where
  toQuiet := quiet_index s index reads log
  same := ⟨rfl,rfl,rfl⟩
  doomed _ doomed := .inl doomed

theorem issued_jobs (s : System) (index : Index) (reads : List Read) (log : List Event)
    {jobs : List Job} (silent : ∀ p, writesOf p jobs = []) :
    Issued s {s with index := index, outbox := s.outbox ++ [jobs], reads := reads, log := log}
      (deletesOf jobs) where
  toQuiet := quiet_issue s index reads log silent
  same := ⟨rfl,rfl,rfl⟩
  doomed p doomed := by
    rcases doomed with inside | deleting
    · have queued := ((jobs_queued s jobs).flatMap_right _).mem_iff.mp inside
      rw [List.flatMap_append] at queued
      rcases List.mem_append.mp queued with before | given
      · exact .inl (.inl before)
      · exact .inr given
    · exact .inl (.inr deleting)

end Quiet

structure Shuffled (s s' : System) : Prop extends Quiet s s' where
  index : s'.index = s.index
  disk : s'.disk = s.disk
  limits : s'.limits = s.limits
  reads : s'.reads = s.reads
  log : s'.log = s.log
  doomed : ∀ p, Doomed s' p → Doomed s p
  clean : ∀ keep, s'.cleanup = some keep → s.cleanup = some keep
  spared : ∀ p, (∀ keep, s.cleanup = some keep → keep p = true) → ¬ Doomed s p →
    s'.files p = s.files p
  busy : s'.writer ≠ .idle → s.writer ≠ .idle ∨ s.cleanup = none

def Action.Channel : Action → Prop
  | .send _ => True
  | .cleanup _ => True
  | .beginDelete => True
  | .delete _ => True
  | .persist _ => True
  | _ => False

variable {digest128 : List UInt8 → Key} {s s' : System}

theorem channel_shuffled {a : Action} (taken : s.step digest128 a = some s')
    (channel : a.Channel) : Shuffled s s' := by
  cases a with
  | send caller =>
    cases found : s.outbox[caller]? with
    | none => simp [System.step,found] at taken
    | some jobs =>
      cases jobs with
      | nil => simp [System.step,found] at taken
      | cons job rest =>
        simp only [System.step,found] at taken
        cases taken
        have moved := sent_perm found s.queue
        refine ⟨⟨fun p => moved.filterMap _,fun _ _ _ _ => Iff.rfl,fun _ _ found => found,
          fun _ _ _ _ _ => rfl⟩,rfl,rfl,rfl,rfl,rfl,?_,fun _ kept => kept,fun _ _ _ => rfl,Or.inl⟩
        rintro p (inside | deleting)
        · exact .inl ((moved.flatMap_right _).mem_iff.mp inside)
        · exact .inr deleting
  | cleanup stuck =>
    simp only [System.step] at taken
    split at taken
    · rename_i keep idle waiting
      cases taken
      refine ⟨⟨fun _ => List.Perm.refl _,fun _ _ _ _ => Iff.rfl,?_,?_⟩,rfl,rfl,rfl,rfl,rfl,
        fun _ doomed => doomed,by simp,?_,Or.inl⟩
      · intro p f found
        simp only at found
        split_ifs at found
        exact found
      · intro k g v n wrote
        rw [idle] at wrote
        cases wrote
      · intro p known _
        simp [known keep waiting]
    · cases taken
  | beginDelete =>
    simp only [System.step] at taken
    split at taken
    · rename_i paths rest idle waiting head
      cases taken
      refine ⟨⟨fun p => ?_,by simp [idle],fun _ _ found => found,fun _ _ _ _ _ => rfl⟩,rfl,rfl,rfl,rfl,
        rfl,?_,fun _ kept => kept,fun _ _ _ => rfl,fun _ => .inr waiting⟩
      · simp [System.jobs,head,writesOf]
      · rintro p (inside | ⟨paths',same,inside⟩)
        · left
          simp only [System.jobs,deletesOf_append] at inside ⊢
          rcases List.mem_append.mp inside with boxed | queued
          · exact List.mem_append_left _ boxed
          · apply List.mem_append_right
            rw [head]
            exact List.mem_append_right _ queued
        · cases same
          left
          simp only [System.jobs,deletesOf_append,head]
          apply List.mem_append_right
          exact List.mem_append_left _ inside
    · cases taken
  | delete removed =>
    simp only [System.step] at taken
    split at taken
    · rename_i deleting
      cases taken
      refine ⟨⟨fun _ => List.Perm.refl _,by simp [deleting],fun _ _ found => found,
        fun _ _ _ _ _ => rfl⟩,rfl,rfl,rfl,rfl,rfl,?_,fun _ kept => kept,fun _ _ _ => rfl,by simp⟩
      rintro p (inside | ⟨paths,same,_⟩)
      · exact .inl inside
      · cases same
    · rename_i path rest deleting
      cases taken
      refine ⟨⟨fun _ => List.Perm.refl _,by simp [deleting],?_,by simp [deleting]⟩,rfl,rfl,rfl,rfl,rfl,
        ?_,fun _ kept => kept,?_,by simp [deleting]⟩
      · intro p f found
        simp only at found
        split_ifs at found
        · rw [Function.update_apply] at found
          split_ifs at found
          exact found
        · exact found
      · rintro p (inside | ⟨paths,same,inside⟩)
        · exact .inl inside
        · cases same
          exact .inr ⟨path :: rest,deleting,List.mem_cons_of_mem _ inside⟩
      · intro p _ spared
        have other : p ≠ path := by
          intro same
          exact spared (.inr ⟨path :: rest,deleting,same ▸ List.mem_cons_self⟩)
        simp only
        split_ifs
        · exact Function.update_of_ne other _ _
        · rfl
    · cases taken
  | persist written =>
    simp only [System.step] at taken
    split at taken
    · rename_i snapshot rest idle waiting head
      cases taken
      refine ⟨⟨fun p => ?_,fun _ _ _ _ => Iff.rfl,fun _ _ found => found,fun _ _ _ _ _ => rfl⟩,rfl,rfl,
        rfl,rfl,rfl,?_,fun _ kept => kept,fun _ _ _ => rfl,Or.inl⟩
      · simp [System.jobs,head,writesOf]
      · rintro p (inside | deleting)
        · left
          simpa [System.jobs,head,deletesOf] using inside
        · exact .inr deleting
    · cases taken
  | lookup _ _ _ => exact channel.elim
  | read _ _ => exact channel.elim
  | resume _ => exact channel.elim
  | store _ _ _ _ _ => exact channel.elim
  | invalidate _ => exact channel.elim
  | saveIndex => exact channel.elim
  | write _ => exact channel.elim
  | done => exact channel.elim

section Write
variable {k : Key} {g : Generation} {v : StoredResponse} {rest : List Job}

theorem performWrite_jobs (head : s.queue = .write k g v :: rest) (metaLen : Option Nat) (p : Path) :
    (writesOf p s.jobs).Perm
      ((if (k,g) = p then [v] else []) ++ writesOf p (s.performWrite k g v rest metaLen).jobs) := by
  have first : writesOf p (.write k g v :: rest) =
      (if (k,g) = p then [v] else []) ++ writesOf p rest := by
    simp only [writesOf,List.filterMap_cons]
    split_ifs <;> rfl
  have same : (s.performWrite k g v rest metaLen).jobs = s.outbox.flatten ++ rest := rfl
  rw [same,System.jobs,head,writesOf_append,writesOf_append,first,← List.append_assoc,← List.append_assoc]
  exact List.perm_append_comm.append_right _

theorem performWrite_elsewhere (head : s.queue = .write k g v :: rest) (metaLen : Option Nat) {p : Path}
    (other : p ≠ (k,g)) : (writesOf p s.jobs).Perm (writesOf p (s.performWrite k g v rest metaLen).jobs) := by
  have kept := performWrite_jobs head metaLen p
  rwa [if_neg fun equal => other equal.symm,List.nil_append] at kept

theorem performWrite_file (metaLen : Option Nat) {p : Path} (other : p ≠ (k,g)) :
    (s.performWrite k g v rest metaLen).files p = s.files p := by
  simp only [System.performWrite]
  split_ifs
  · exact Function.update_of_ne other _ _
  · rfl

theorem Settled.not_written (head : s.queue = .write k g v :: rest) {j : Key} {g' : Generation}
    {w : StoredResponse} (ok : Settled s j g' w) : (j,g') ≠ (k,g) := by
  intro equal
  have issued := performWrite_jobs head none (j,g')
  rw [ok.written,if_pos equal.symm] at issued
  simpa using issued.length_eq

theorem performWrite_settled (head : s.queue = .write k g v :: rest) (metaLen : Option Nat) {j : Key}
    {g' : Generation} {w : StoredResponse} (ok : Settled s j g' w) :
    Settled (s.performWrite k g v rest metaLen) j g' w := by
  have other := ok.not_written head
  refine ⟨by rw [performWrite_file metaLen other]; exact ok.file,?_⟩
  have kept := performWrite_elsewhere head metaLen other
  rw [ok.written] at kept
  exact List.nil_perm.mp kept

theorem performWrite_awaited (idle : s.writer = .idle) (head : s.queue = .write k g v :: rest)
    (metaLen : Option Nat) {j : Key} {g' : Generation} {w : StoredResponse} (ok : Awaited s j g' w) :
    Awaited (s.performWrite k g v rest metaLen) j g' w := by
  rcases ok with ⟨issued,_⟩ | ⟨_,result,wrote,_⟩
  · by_cases here : (j,g') = (k,g)
    · -- The awaited write is the one that was just performed.
      cases here
      have performed := performWrite_jobs head metaLen (k,g)
      rw [issued,if_pos rfl,List.singleton_append] at performed
      obtain ⟨rfl,done⟩ := List.cons_eq_cons.mp (List.singleton_perm.mp performed)
      refine .inr ⟨done.symm,metaLen.map fun n => 8 + n + w.body.length,rfl,?_⟩
      intro succeeded
      rw [Option.isSome_map] at succeeded
      simp [System.performWrite,succeeded]
    · have kept := performWrite_elsewhere head metaLen here
      rw [issued] at kept
      refine .inl ⟨List.singleton_perm.mp kept |>.symm,?_⟩
      intro u result wrote
      cases wrote
      exact here rfl
  · rw [idle] at wrote
    cases wrote

theorem performWrite_doomed (head : s.queue = .write k g v :: rest) {metaLen : Option Nat} {p : Path}
    (doomed : Doomed (s.performWrite k g v rest metaLen) p) : Doomed s p := by
  rcases doomed with inside | ⟨paths,deleting,_⟩
  · left
    have same : deletesOf s.jobs = deletesOf (s.performWrite k g v rest metaLen).jobs := by
      simp only [System.jobs,head,System.performWrite,deletesOf_append]
      rfl
    rw [same]
    exact inside
  · cases deleting

theorem finishWrite_doomed {result : Option Nat} {p : Path} (doomed : Doomed (s.finishWrite k g result) p) :
    Doomed s p ∨ p ∈ (s.index.onWriteDone s.limits k g result).2 := by
  rcases doomed with inside | ⟨paths,deleting,given⟩
  · exact .inl (.inl inside)
  · cases deleting
    exact .inr given

theorem finishWrite_settled {result : Option Nat} {j : Key} {g' : Generation} {w : StoredResponse}
    (ok : Settled s j g' w) : Settled (s.finishWrite k g result) j g' w :=
  ⟨ok.file,ok.written⟩

theorem finishWrite_awaited {result : Option Nat} (wrote : s.writer = .wrote k g v result) {j : Key}
    {g' : Generation} {w : StoredResponse} (other : (j,g') ≠ (k,g)) (ok : Awaited s j g' w) :
    Awaited (s.finishWrite k g result) j g' w := by
  rcases ok with ⟨issued,_⟩ | ⟨_,result',wrote',_⟩
  · exact .inl ⟨issued,by intro u r equal; cases equal⟩
  · rw [wrote] at wrote'
    cases wrote'
    exact absurd rfl other

theorem Awaited.reported {result : Option Nat} (wrote : s.writer = .wrote k g v result)
    {w : StoredResponse} (ok : Awaited s k g w) :
    writesOf (k,g) s.jobs = [] ∧ w = v ∧ (result.isSome → s.files (k,g) = some (writeEntry w)) := by
  rcases ok with ⟨_,idle⟩ | ⟨issued,result',wrote',file⟩
  · exact absurd wrote (idle v result)
  · rw [wrote] at wrote'
    cases wrote'
    exact ⟨issued,rfl,file⟩

end Write

section Store
variable (digest128) (url : Url) (credentials : Bool) (request : HeaderMap) (varyNames : List String)
  (response : StoredResponse) (s : System)

theorem store_eq :
    let v := response.filed url varyNames request
    let k := storeKey digest128 url credentials request varyNames
    let g := s.index.generation.1
    let result := s.index.store s.limits s.disk (primaryKey digest128 url credentials) varyNames k v
    s.store digest128 url credentials request varyNames response =
      {s with
        index := result.1
        outbox := s.outbox ++ [System.deleteJobs result.2.1 ++
          if s.disk && decide (v.body.length ≤ s.limits.diskEntryMax) then [.write k g v] else []]
        log := s.log ++ [.stored k g v]} := by
  intro v k g result
  have write : result.2.2 =
      if s.disk && decide (v.body.length ≤ s.limits.diskEntryMax) then some g else none :=
    Index.store_write ..
  have writes : (result.2.2.map fun generation => Job.write k generation v).toList =
      if s.disk && decide (v.body.length ≤ s.limits.diskEntryMax) then [.write k g v] else [] := by
    rw [write]
    split_ifs <;> rfl
  rw [← writes]
  rfl

theorem store_writes (p : Path) :
    (writesOf p (s.store digest128 url credentials request varyNames response).jobs).Perm (writesOf p s.jobs ++
        if (s.disk && decide (response.body.length ≤ s.limits.diskEntryMax)) = true ∧
          p = (storeKey digest128 url credentials request varyNames,s.index.generation.1)
        then [response.filed url varyNames request] else []) := by
  rw [store_eq]
  have queued := (jobs_queued s (System.deleteJobs (s.index.store s.limits s.disk
    (primaryKey digest128 url credentials) varyNames (storeKey digest128 url credentials request varyNames)
    (response.filed url varyNames request)).2.1 ++
    if s.disk && decide ((response.filed url varyNames request).body.length ≤ s.limits.diskEntryMax) then
      [.write (storeKey digest128 url credentials request varyNames) s.index.generation.1
        (response.filed url varyNames request)] else [])).filterMap (fun job => match job with
      | .write vkey generation value => if (vkey,generation) = p then some value else none
      | _ => none)
  refine queued.trans (List.Perm.of_eq ?_)
  have none := writesOf_deleteJobs p (s.index.store s.limits s.disk (primaryKey digest128 url credentials)
    varyNames (storeKey digest128 url credentials request varyNames) (response.filed url varyNames request)).2.1
  unfold writesOf at none ⊢
  rw [List.filterMap_append,List.filterMap_append,none,List.nil_append]
  congr 1
  have same : (response.filed url varyNames request).body = response.body := rfl
  rw [same]
  by_cases onDisk : (s.disk && decide (response.body.length ≤ s.limits.diskEntryMax)) = true
  · by_cases here : p = (storeKey digest128 url credentials request varyNames,s.index.generation.1)
    · simp [onDisk,here]
    · simp [onDisk,here,Ne.symm here]
  · simp [onDisk]

theorem store_elsewhere {p : Path}
    (other : p ≠ (storeKey digest128 url credentials request varyNames,s.index.generation.1)) :
    (writesOf p (s.store digest128 url credentials request varyNames response).jobs).Perm
      (writesOf p s.jobs) := by
  have kept := store_writes digest128 url credentials request varyNames response s p
  rwa [if_neg fun both => other both.2,List.append_nil] at kept

theorem store_settled {j : Key} {g : Generation} {w : StoredResponse}
    (other : (j,g) ≠ (storeKey digest128 url credentials request varyNames,s.index.generation.1))
    (ok : Settled s j g w) : Settled (s.store digest128 url credentials request varyNames response) j g w := by
  refine ⟨ok.file,?_⟩
  have kept := store_elsewhere digest128 url credentials request varyNames response s other
  rw [ok.written] at kept
  exact List.perm_nil.mp kept

theorem store_awaited {j : Key} {g : Generation} {w : StoredResponse}
    (other : (j,g) ≠ (storeKey digest128 url credentials request varyNames,s.index.generation.1))
    (ok : Awaited s j g w) : Awaited (s.store digest128 url credentials request varyNames response) j g w := by
  have kept := store_elsewhere digest128 url credentials request varyNames response s other
  rcases ok with ⟨issued,idle⟩ | ⟨issued,wrote⟩
  · rw [issued] at kept
    exact .inl ⟨List.perm_singleton.mp kept,idle⟩
  · rw [issued] at kept
    exact .inr ⟨List.perm_nil.mp kept,wrote⟩

theorem store_doomed {p : Path}
    (doomed : Doomed (s.store digest128 url credentials request varyNames response) p) :
    Doomed s p ∨ p ∈ (s.index.store s.limits s.disk (primaryKey digest128 url credentials) varyNames
      (storeKey digest128 url credentials request varyNames) (response.filed url varyNames request)).2.1 := by
  rw [store_eq] at doomed
  rcases doomed with inside | deleting
  · have queued := ((jobs_queued s _).flatMap_right _).mem_iff.mp inside
    rw [List.flatMap_append] at queued
    rcases List.mem_append.mp queued with before | given
    · exact .inl (.inl before)
    · right
      rw [List.flatMap_append] at given
      rcases List.mem_append.mp given with deletion | write
      · have deletes := deletesOf_deleteJobs (s.index.store s.limits s.disk
          (primaryKey digest128 url credentials) varyNames
          (storeKey digest128 url credentials request varyNames) (response.filed url varyNames request)).2.1
        rw [← deletes]
        exact deletion
      · split_ifs at write <;> simp at write
  · exact .inl (.inr deleting)

theorem store_issues (onDisk : (s.disk && decide (response.body.length ≤ s.limits.diskEntryMax)) = true)
    (free : s.Free (storeKey digest128 url credentials request varyNames) s.index.generation.1) :
    Awaited (s.store digest128 url credentials request varyNames response)
      (storeKey digest128 url credentials request varyNames) s.index.generation.1
      (response.filed url varyNames request) := by
  have issued := store_writes digest128 url credentials request varyNames response s
    (storeKey digest128 url credentials request varyNames,s.index.generation.1)
  rw [free.1,if_pos ⟨onDisk,rfl⟩,List.nil_append] at issued
  exact .inl ⟨List.perm_singleton.mp issued,free.2.1⟩

end Store

end Sharko.Netstack.Cache
