import Mathlib
import Sharko.Library.Folds
import Sharko.Script.Modules.Loading

/-! What the walk over the module graph reports, and that every job is settled as its graph is. -/

namespace Sharko.Script.Modules

open Library Relation

abbrev ModuleMap (Url Mod Err : Type) := FiniteMap Url (Entry Mod Err)

variable {Url Source Mod Err Env : Type} [DecidableEq Url] (v8 : Engine Url Source Mod Err Env) (env : Env)
  (map : ModuleMap Url Mod Err) (root : Url)

def Edge (u v : Url) : Prop := ∃ m,map.lookup u = some (.ready m) ∧ v ∈ deps v8 env u m

abbrev Reach : Url → Url → Prop := ReflTransGen (Edge v8 env map)

def AllReady : Prop := ∀ u,Reach v8 env map root u → ∃ m,map.lookup u = some (.ready m)

def Fails (e : Err) : Prop := ∃ u,Reach v8 env map root u ∧ map.lookup u = some (.failed e)

/-- What a result of the walk says of the modules that are reached. -/
def Reports : GraphState Err → Prop
  | .failed e => Fails v8 env map root e
  | .ready => AllReady v8 env map root
  | .pending => (∀ e,¬Fails v8 env map root e) ∧
    ∃ u,Reach v8 env map root u ∧ (map.lookup u = none ∨ map.lookup u = some .fetching)

/-- The visited modules have been looked at, and what they lead to is visited or on the stack. -/
structure Walked (visited : Finset Url) (pending : Bool) (stack : List Url) : Prop where
  seen : ∀ u ∈ visited,Reach v8 env map root u
  next : ∀ u ∈ stack,Reach v8 env map root u
  rooted : root ∈ visited ∨ root ∈ stack
  closed : ∀ u ∈ visited,∀ v,Edge v8 env map u v → v ∈ visited ∨ v ∈ stack
  fine : ∀ u ∈ visited,∀ e,map.lookup u ≠ some (.failed e)
  waits : pending = true → ∃ u ∈ visited,map.lookup u = none ∨ map.lookup u = some .fetching
  complete : pending = false → ∀ u ∈ visited,∃ m,map.lookup u = some (.ready m)

/-- No module that has been fetched changes, and its requests resolve as before. -/
structure Evolves (env' : Env) (map' : ModuleMap Url Mod Err) : Prop where
  kept : ∀ u entry,map.lookup u = some entry → entry ≠ .fetching → map'.lookup u = some entry
  same : ∀ u m,map.lookup u = some (.ready m) → deps v8 env' u m = deps v8 env u m

/-- Every module that is reached has been asked for, none has failed and one is still awaited. -/
structure Waits : Prop where
  known : ∀ u,Reach v8 env map root u → u ∈ map
  fine : ∀ e,¬Fails v8 env map root e
  awaited : ∃ u,Reach v8 env map root u ∧ map.lookup u = some .fetching

def Settled : Outcome Err → Prop
  | .loaded => AllReady v8 env map root
  | .failed e => Fails v8 env map root e

/-- The requests of the entry, if it is ready, are among the fetches to start. -/
def Starts (url : Url) (entry : Entry Mod Err) (found : List Url) : Prop :=
  ∀ m,entry = .ready m → ∀ spec ∈ v8.requests m,∃ v ∈ found,v8.resolve env url spec = .ok v

variable {v8 env map root} {visited : Finset Url} {pending : Bool} {stack : List Url} {url : Url}

theorem Walked.all (walked : Walked v8 env map root visited pending []) {u : Url} (reached : Reach v8 env map root u) :
    u ∈ visited := by
  induction reached with
  | refl => exact walked.rooted.resolve_right List.not_mem_nil
  | tail _ edge ih => exact (walked.closed _ ih _ edge).resolve_right List.not_mem_nil

theorem Walked.skip (walked : Walked v8 env map root visited pending (url :: stack)) (there : url ∈ visited) :
    Walked v8 env map root visited pending stack := by
  have shrink : ∀ v,v ∈ visited ∨ v ∈ url :: stack → v ∈ visited ∨ v ∈ stack := by
    intro v place
    rcases place with seen | next
    · exact .inl seen
    · rcases List.mem_cons.mp next with rfl | later
      · exact .inl there
      · exact .inr later
  exact { walked with
    next := fun u later => walked.next u (List.mem_cons_of_mem _ later)
    rooted := shrink root walked.rooted
    closed := fun u seen v edge => shrink v (walked.closed u seen v edge) }

/-- A module that has not failed is visited, and what it leads to comes onto the stack. -/
theorem Walked.visit (walked : Walked v8 env map root visited pending (url :: stack)) {found : List Url} {waiting : Bool}
    (edges : ∀ v,Edge v8 env map url v ↔ v ∈ found) (fine : ∀ e,map.lookup url ≠ some (.failed e))
    (waits : waiting = true → pending = true ∨ map.lookup url = none ∨ map.lookup url = some .fetching)
    (complete : waiting = false → pending = false ∧ ∃ m,map.lookup url = some (.ready m)) :
    Walked v8 env map root (insert url visited) waiting (found ++ stack) := by
  have reached : Reach v8 env map root url := walked.next url List.mem_cons_self
  have move : ∀ v,v ∈ visited ∨ v ∈ url :: stack → v ∈ insert url visited ∨ v ∈ found ++ stack := by
    intro v place
    rcases place with seen | next
    · exact .inl (Finset.mem_insert_of_mem seen)
    · rcases List.mem_cons.mp next with rfl | later
      · exact .inl (Finset.mem_insert_self _ _)
      · exact .inr (List.mem_append_right _ later)
  refine ⟨?_,?_,move root walked.rooted,?_,?_,?_,?_⟩
  · intro u member
    rcases Finset.mem_insert.mp member with rfl | seen
    · exact reached
    · exact walked.seen u seen
  · intro u member
    rcases List.mem_append.mp member with new | later
    · exact reached.tail ((edges u).mpr new)
    · exact walked.next u (List.mem_cons_of_mem _ later)
  · intro u member v edge
    rcases Finset.mem_insert.mp member with rfl | seen
    · exact .inr (List.mem_append_left _ ((edges v).mp edge))
    · exact move v (walked.closed u seen v edge)
  · intro u member
    rcases Finset.mem_insert.mp member with rfl | seen
    · exact fine
    · exact walked.fine u seen
  · intro is
    rcases waits is with before | here
    · obtain ⟨u,seen,waiting⟩ := walked.waits before
      exact ⟨u,Finset.mem_insert_of_mem seen,waiting⟩
    · exact ⟨url,Finset.mem_insert_self _ _,here⟩
  · intro is u member
    rcases Finset.mem_insert.mp member with rfl | seen
    · exact (complete is).2
    · exact walked.complete (complete is).1 u seen

theorem graphWalk_reports (walked : Walked v8 env map root visited pending stack) :
    Reports v8 env map root (graphWalk v8 env map visited pending stack) := by
  fun_induction graphWalk v8 env map visited pending stack with
  | case1 visited =>
    refine ⟨fun e fails => ?_,?_⟩
    · obtain ⟨u,reached,failed⟩ := fails
      exact walked.fine u (walked.all reached) e failed
    · obtain ⟨u,seen,waiting⟩ := walked.waits rfl
      exact ⟨u,walked.seen u seen,waiting⟩
  | case2 visited pending ready =>
    exact fun u reached => walked.complete (by simpa using ready) u (walked.all reached)
  | case3 visited pending url stack there ih => exact ih (walked.skip there)
  | case4 visited pending url stack _ absent ih =>
    refine ih (walked.visit (fun v => iff_of_false ?_ List.not_mem_nil) ?_ (fun _ => .inr (.inl absent)) (by simp))
    · rintro ⟨m,ready,_⟩
      cases absent.symm.trans ready
    · exact fun e failed => by cases absent.symm.trans failed
  | case5 visited pending url stack _ fetching ih =>
    refine ih (walked.visit (fun v => iff_of_false ?_ List.not_mem_nil) ?_ (fun _ => .inr (.inr fetching)) (by simp))
    · rintro ⟨m,ready,_⟩
      cases fetching.symm.trans ready
    · exact fun e failed => by cases fetching.symm.trans failed
  | case6 visited pending url stack _ e failed => exact ⟨url,walked.next url List.mem_cons_self,failed⟩
  | case7 visited pending url stack _ m ready ih =>
    refine ih (walked.visit (fun v => ?_) ?_ .inl fun is => ⟨is,m,ready⟩)
    · rw [List.mem_reverse]
      refine ⟨fun ⟨m',ready',dep⟩ => ?_,fun dep => ⟨m,ready,dep⟩⟩
      cases ready.symm.trans ready'
      exact dep
    · exact fun e failed => by cases ready.symm.trans failed

/-- The walk ends and reports on exactly the modules that are reached. -/
theorem graphState_reports (v8 : Engine Url Source Mod Err Env) (env : Env) (map : ModuleMap Url Mod Err) (root : Url) :
    Reports v8 env map root (graphState v8 env map root) :=
  graphWalk_reports ⟨by simp,by simp [ReflTransGen.refl],by simp,by simp,by simp,by simp,by simp⟩

variable {env' : Env} {map' : ModuleMap Url Mod Err}

theorem Evolves.edge (evolves : Evolves v8 env map env' map') {a b : Url} (edge : Edge v8 env map a b) :
    Edge v8 env' map' a b := by
  obtain ⟨m,ready,dep⟩ := edge
  exact ⟨m,evolves.kept a _ ready (by simp),by rwa [evolves.same a m ready]⟩

theorem Evolves.reach (evolves : Evolves v8 env map env' map') {u : Url} (reached : Reach v8 env map root u) :
    Reach v8 env' map' root u :=
  ReflTransGen.mono (fun _ _ => evolves.edge) _ _ reached

theorem Evolves.edge_back (evolves : Evolves v8 env map env' map') {a b : Url} {entry : Entry Mod Err}
    (there : map.lookup a = some entry) (still : map'.lookup a = some entry) (edge : Edge v8 env' map' a b) :
    Edge v8 env map a b := by
  obtain ⟨m,ready,dep⟩ := edge
  obtain rfl := Option.some.inj (still.symm.trans ready)
  exact ⟨m,there,by rwa [← evolves.same a m there]⟩

/-- Where what is reached stays as it is, nothing else is reached. -/
theorem Evolves.reach_back (evolves : Evolves v8 env map env' map') {u : Url}
    (stays : ∀ a,Reach v8 env map root a → ∃ entry,map.lookup a = some entry ∧ map'.lookup a = some entry)
    (reached : Reach v8 env' map' root u) : Reach v8 env map root u := by
  induction reached with
  | refl => exact .refl
  | tail _ edge ih =>
    obtain ⟨entry,there,still⟩ := stays _ ih
    exact ih.tail (evolves.edge_back there still edge)

theorem Evolves.allReady (evolves : Evolves v8 env map env' map') (all : AllReady v8 env map root) :
    AllReady v8 env' map' root := by
  intro u reached
  obtain ⟨m,ready⟩ := all u (evolves.reach_back (fun a reached => by
    obtain ⟨m,ready⟩ := all a reached
    exact ⟨_,ready,evolves.kept a _ ready (by simp)⟩) reached)
  exact ⟨m,evolves.kept u _ ready (by simp)⟩

theorem Evolves.fails (evolves : Evolves v8 env map env' map') {e : Err} (fails : Fails v8 env map root e) :
    Fails v8 env' map' root e := by
  obtain ⟨u,reached,failed⟩ := fails
  exact ⟨u,evolves.reach reached,evolves.kept u _ failed (by simp)⟩

theorem Evolves.settled (evolves : Evolves v8 env map env' map') {outcome : Outcome Err}
    (settled : Settled v8 env map root outcome) : Settled v8 env' map' root outcome := by
  cases outcome with
  | loaded => exact evolves.allReady settled
  | failed e => exact evolves.fails settled

theorem Evolves.waits (evolves : Evolves v8 env map env' map')
    (still : ∀ u,map.lookup u = some .fetching → map'.lookup u = some .fetching) (waits : Waits v8 env map root) :
    Waits v8 env' map' root := by
  have stays : ∀ u,Reach v8 env map root u → ∃ entry,map.lookup u = some entry ∧ map'.lookup u = some entry := by
    intro u reached
    obtain ⟨entry,there⟩ := Finmap.mem_iff.mp (waits.known u reached)
    cases entry with
    | fetching => exact ⟨_,there,still u there⟩
    | ready m => exact ⟨_,there,evolves.kept u _ there (by simp)⟩
    | failed e => exact ⟨_,there,evolves.kept u _ there (by simp)⟩
  refine ⟨fun u reached => ?_,fun e fails => ?_,?_⟩
  · obtain ⟨entry,-,there⟩ := stays u (evolves.reach_back stays reached)
    exact Finmap.mem_of_lookup_eq_some there
  · obtain ⟨u,reached,failed⟩ := fails
    have before := evolves.reach_back stays reached
    obtain ⟨entry,there,after⟩ := stays u before
    obtain rfl := Option.some.inj (after.symm.trans failed)
    exact waits.fine e ⟨u,before,there⟩
  · obtain ⟨u,reached,fetching⟩ := waits.awaited
    exact ⟨u,evolves.reach reached,still u fetching⟩

namespace Loader

variable {s : Loader Url Mod Err Env} {entry : Entry Mod Err} {starting : List Url}

omit [DecidableEq Url] in
theorem resolved_all {f : String → Except Err Url} {specs : List String} {found : List Url}
    (resolved : specs.mapM f = .ok found) : ∀ spec ∈ specs,∃ v ∈ found,f spec = .ok v := by
  induction specs generalizing found with
  | nil => exact List.forall_mem_nil _
  | cons spec specs ih =>
    rw [List.mapM_cons] at resolved
    obtain ⟨v,is,resolved⟩ := Folds.bind_ok.mp resolved
    obtain ⟨rest,later,resolved⟩ := Folds.bind_ok.mp resolved
    cases resolved
    rw [List.forall_mem_cons]
    refine ⟨⟨v,List.mem_cons_self,is⟩,fun other member => ?_⟩
    obtain ⟨w,inside,is⟩ := ih later other member
    exact ⟨w,List.mem_cons_of_mem _ inside,is⟩

theorem compile_cases (v8 : Engine Url Source Mod Err Env) (s : Loader Url Mod Err Env) (url : Url) (source : Source) :
    ∃ entry found,s.compileAndRegister v8 url source = {s.register url entry with starting := found ++ s.starting} ∧
      entry ≠ .fetching ∧ Starts v8 s.env url entry found := by
  unfold compileAndRegister
  split
  case h_1 e _ => exact ⟨.failed e,[],rfl,by simp,fun m is => by cases is⟩
  case h_2 m _ =>
    split
    case h_1 e _ => exact ⟨.failed e,[],rfl,by simp,fun m is => by cases is⟩
    case h_2 found resolved =>
      refine ⟨.ready m,found,rfl,by simp,fun m' is => ?_⟩
      cases is
      exact resolved_all resolved

theorem start_cases (v8 : Engine Url Source Mod Err Env) (s : Loader Url Mod Err Env) (url : Url) :
    (url ∈ s.map ∧ s.startFetch v8 url = s) ∨
    (url ∉ s.map ∧ ∃ entry found,s.startFetch v8 url = {s.register url entry with starting := found ++ s.starting} ∧
      entry ≠ .fetching ∧ Starts v8 s.env url entry found) ∨
    (url ∉ s.map ∧ s.startFetch v8 url = {s.register url .fetching with
      nextFetch := s.nextFetch + 1
      fetches := s.fetches ++ [(s.nextFetch,url)]
      requested := s.requested ++ [url]}) := by
  unfold startFetch
  split_ifs with known blob
  · exact .inl ⟨known,rfl⟩
  · refine .inr (.inl ⟨known,?_⟩)
    split
    case h_1 source _ => exact compile_cases v8 s url source
    case h_2 e _ => exact ⟨.failed e,[],rfl,by simp,fun m is => by cases is⟩
  · exact .inr (.inr ⟨known,rfl⟩)

theorem respond_cases (v8 : Engine Url Source Mod Err Env) (s : Loader Url Mod Err Env) (id : ℕ) (resp : Response Source) :
    (s.onFetchResponse v8 id resp = s) ∨
    ∃ url,(id,url) ∈ s.fetches ∧ ∃ entry found,s.onFetchResponse v8 id resp = {s.register url entry with
        fetches := s.fetches.filter (·.1 ≠ id)
        after := some none
        starting := found ++ s.starting} ∧
      entry ≠ .fetching ∧ Starts v8 s.env url entry found := by
  unfold onFetchResponse
  split
  case h_1 => exact .inl rfl
  case h_2 id' url found =>
    have is := List.find?_some found
    rw [decide_eq_true_eq] at is
    subst is
    refine .inr ⟨url,List.mem_of_find?_eq_some found,?_⟩
    dsimp only
    split_ifs
    · exact ⟨_,[],rfl,by simp,fun m is => by cases is⟩
    · exact ⟨_,[],rfl,by simp,fun m is => by cases is⟩
    · exact compile_cases v8 _ url resp.body

structure Fetched (s : Loader Url Mod Err Env) : Prop where
  once : s.requested.Nodup
  known : ∀ u ∈ s.requested,u ∈ s.map
  awaited : ∀ u,s.map.lookup u = some .fetching → ∃ id,(id,u) ∈ s.fetches
  fetching : ∀ f ∈ s.fetches,s.map.lookup f.2 = some .fetching
  apart : (s.fetches.map Prod.snd).Nodup
  ids : (s.fetches.map Prod.fst).Nodup
  numbered : ∀ f ∈ s.fetches,f.1 < s.nextFetch

theorem lookup_register (url : Url) (entry : Entry Mod Err) (u : Url) :
    (s.register url entry).map.lookup u = if u = url then some entry else s.map.lookup u :=
  FiniteMap.lookup_insert_if s.map url u entry

theorem Fetched.register (fetched : Fetched s) {url : Url} (new : url ∉ s.map) (other : entry ≠ .fetching) :
    Fetched (s.register url entry) := by
  refine { fetched with known := ?_, awaited := ?_, fetching := ?_ }
  · exact fun u asked => Finmap.mem_insert.mpr (.inr (fetched.known u asked))
  · intro u fetching
    rw [lookup_register] at fetching
    split_ifs at fetching
    · exact absurd (Option.some.inj fetching) other
    · exact fetched.awaited u fetching
  · intro f member
    have before := fetched.fetching f member
    rw [lookup_register,if_neg fun is : f.2 = url => new (is ▸ Finmap.mem_of_lookup_eq_some before)]
    exact before

theorem Fetched.ask (fetched : Fetched s) {url : Url} (new : url ∉ s.map) :
    Fetched {s.register url .fetching with
      nextFetch := s.nextFetch + 1
      fetches := s.fetches ++ [(s.nextFetch,url)]
      requested := s.requested ++ [url]} := by
  have apart : ∀ f ∈ s.fetches,f.2 ≠ url := fun f member is =>
    new (is ▸ Finmap.mem_of_lookup_eq_some (fetched.fetching f member))
  refine ⟨?_,?_,?_,?_,?_,?_,?_⟩
  · exact List.nodup_append.mpr ⟨fetched.once,List.nodup_singleton _,fun a asked b is same => new (by
      rw [← List.mem_singleton.mp is,← same]
      exact fetched.known a asked)⟩
  · intro u asked
    rcases List.mem_append.mp asked with before | now
    · exact Finmap.mem_insert.mpr (.inr (fetched.known u before))
    · exact Finmap.mem_insert.mpr (.inl (List.mem_singleton.mp now))
  · intro u fetching
    by_cases same : u = url
    · exact ⟨s.nextFetch,List.mem_append_right _ (by simp [same])⟩
    · have before := (lookup_register url (.fetching : Entry Mod Err) u).symm.trans fetching
      rw [if_neg same] at before
      obtain ⟨id,member⟩ := fetched.awaited u before
      exact ⟨id,List.mem_append_left _ member⟩
  · intro f member
    refine (lookup_register url _ f.2).trans ?_
    rcases List.mem_append.mp member with before | now
    · rw [if_neg (apart f before)]
      exact fetched.fetching f before
    · rw [List.mem_singleton.mp now,if_pos rfl]
  · rw [List.map_append]
    exact List.nodup_append.mpr ⟨fetched.apart,List.nodup_singleton _,fun a inside b is same => by
      obtain ⟨f,member,rfl⟩ := List.mem_map.mp inside
      exact apart f member (same.trans (List.mem_singleton.mp is))⟩
  · rw [List.map_append]
    exact List.nodup_append.mpr ⟨fetched.ids,List.nodup_singleton _,fun a inside b is same => by
      obtain ⟨f,member,rfl⟩ := List.mem_map.mp inside
      exact (fetched.numbered f member).ne (same.trans (List.mem_singleton.mp is))⟩
  · intro f member
    rcases List.mem_append.mp member with before | now
    · exact (fetched.numbered f before).trans (Nat.lt_succ_self _)
    · rw [List.mem_singleton.mp now]
      exact Nat.lt_succ_self _

theorem Fetched.answer (fetched : Fetched s) {id : ℕ} {url : Url} (outstanding : (id,url) ∈ s.fetches)
    (other : entry ≠ .fetching) :
    Fetched {s.register url entry with fetches := s.fetches.filter (·.1 ≠ id)} := by
  refine ⟨fetched.once,fun u asked => Finmap.mem_insert.mpr (.inr (fetched.known u asked)),?_,?_,
    (List.filter_sublist.map _).nodup fetched.apart,(List.filter_sublist.map _).nodup fetched.ids,
    fun f member => fetched.numbered f (List.mem_of_mem_filter member)⟩
  · intro u fetching
    have before := (lookup_register url entry u).symm.trans fetching
    split_ifs at before with same
    · exact absurd (Option.some.inj before) other
    · obtain ⟨id',member⟩ := fetched.awaited u before
      refine ⟨id',List.mem_filter.mpr ⟨member,decide_eq_true fun is => same ?_⟩⟩
      exact congrArg Prod.snd (List.inj_on_of_nodup_map fetched.ids member outstanding is)
  · intro f member
    obtain ⟨before,apart⟩ := List.mem_filter.mp member
    refine (lookup_register url entry f.2).trans ?_
    rw [if_neg fun same => of_decide_eq_true apart
      (congrArg Prod.fst (List.inj_on_of_nodup_map fetched.apart before outstanding same))]
    exact fetched.fetching f before

/-- The job that `load` is about to add. -/
def entering (s : Loader Url Mod Err Env) : List (Job Url) :=
  match s.after with
  | some (some job) => [job]
  | _ => []

structure Sound (v8 : Engine Url Source Mod Err Env) (s : Loader Url Mod Err Env) : Prop where
  closed : ∀ u m,s.map.lookup u = some (.ready m) → ∀ spec ∈ v8.requests m,
    ∃ v,v8.resolve s.env u spec = .ok v ∧ (v ∈ s.map ∨ v ∈ s.starting)
  rooted : ∀ job ∈ s.jobs,job.root ∈ s.map
  enters : ∀ job ∈ s.entering,job.root ∈ s.map ∨ job.root ∈ s.starting
  scanned : ∀ i,s.scanning = some i → i ≤ s.jobs.length ∧ ∀ job ∈ s.jobs.take i,Waits v8 s.env s.map job.root
  rests : s.scanning = none → s.after = none → ∀ job ∈ s.jobs,Waits v8 s.env s.map job.root
  right : ∀ e ∈ s.settled,Settled v8 s.env s.map e.1.root e.2
  each : ((s.jobs ++ s.entering ++ s.settled.map Prod.fst).map Job.id).Perm (List.range s.loads)

/-- A module gets its entry; one that was awaited only gets it where no job was found to wait. -/
theorem Sound.register (sound : Sound v8 s) {url : Url}
    (fresh : url ∉ s.map ∨ (s.map.lookup url = some .fetching ∧ s.scanning = none ∧ s.after ≠ none))
    (kept : ∀ v ∈ s.starting,v = url ∨ v ∈ starting) {found : List Url} (requests : Starts v8 s.env url entry found)
    (started : ∀ v ∈ found,v ∈ starting) : Sound v8 {s.register url entry with starting := starting} := by
  have lookups : ∀ u,(s.register url entry).map.lookup u = if u = url then some entry else s.map.lookup u :=
    lookup_register url entry
  have grows : ∀ {u},u ∈ s.map → u ∈ (s.register url entry).map := fun known => Finmap.mem_insert.mpr (.inr known)
  have placed : ∀ {v},v ∈ s.map ∨ v ∈ s.starting → v ∈ (s.register url entry).map ∨ v ∈ starting := by
    intro v there
    rcases there with known | next
    · exact .inl (grows known)
    · rcases kept v next with rfl | later
      · exact .inl (Finmap.mem_insert.mpr (.inl rfl))
      · exact .inr later
  have evolves : Evolves v8 s.env s.map s.env (s.register url entry).map := by
    refine ⟨fun u old there other => ?_,fun _ _ _ => rfl⟩
    rw [lookups,if_neg]
    · exact there
    · rintro rfl
      rcases fresh with new | ⟨fetching,_⟩
      · exact new (Finmap.mem_of_lookup_eq_some there)
      · exact other (Option.some.inj (there.symm.trans fetching))
  have still : url ∉ s.map → ∀ {r},Waits v8 s.env s.map r → Waits v8 s.env (s.register url entry).map r := by
    intro new r waits
    refine evolves.waits (fun u fetching => ?_) waits
    rw [lookups,if_neg fun is : u = url => new (is ▸ Finmap.mem_of_lookup_eq_some fetching)]
    exact fetching
  refine ⟨?_,fun job member => grows (sound.rooted job member),fun job member => placed (sound.enters job member),
    ?_,?_,fun e member => evolves.settled (sound.right e member),sound.each⟩
  · intro u m ready spec asked
    have is := (lookups u).symm.trans ready
    split_ifs at is with same
    · subst same
      obtain ⟨v,next,resolved⟩ := requests m (Option.some.inj is) spec asked
      exact ⟨v,resolved,.inr (started v next)⟩
    · obtain ⟨v,resolved,there⟩ := sound.closed u m is spec asked
      exact ⟨v,resolved,placed there⟩
  · intro i scanning
    obtain ⟨bound,waits⟩ := sound.scanned i scanning
    refine ⟨bound,fun job member => ?_⟩
    rcases fresh with new | ⟨_,none_,_⟩
    · exact still new (waits job member)
    · cases none_.symm.trans scanning
  · intro none_ rests job member
    rcases fresh with new | ⟨_,_,busy⟩
    · exact still new (sound.rests none_ rests job member)
    · exact absurd rests busy

/-- Where no fetch is still to be started, everything that is reached from a module that is known is known. -/
theorem Sound.reached (sound : Sound v8 s) (none_ : s.starting = []) {r : Url} (known : r ∈ s.map) {u : Url}
    (reached : Reach v8 s.env s.map r u) : u ∈ s.map := by
  induction reached with
  | refl => exact known
  | tail _ edge _ =>
    obtain ⟨m,ready,dep⟩ := edge
    obtain ⟨spec,asked,is⟩ := List.mem_filterMap.mp dep
    obtain ⟨v,resolved,there⟩ := sound.closed _ m ready spec asked
    rw [resolved] at is
    cases is
    rw [none_] at there
    exact there.resolve_right List.not_mem_nil

theorem Sound.start (sound : Sound v8 s) (fetched : Fetched s) {url : Url} {urls : List Url}
    (is : s.starting = url :: urls) :
    Sound v8 ({s with starting := urls}.startFetch v8 url) ∧ Fetched ({s with starting := urls}.startFetch v8 url) := by
  have kept : ∀ found,∀ v ∈ s.starting,v = url ∨ v ∈ found ++ urls := by
    intro found v there
    rw [is] at there
    exact (List.mem_cons.mp there).imp_right (List.mem_append_right _)
  rcases start_cases v8 {s with starting := urls} url with ⟨known,same⟩ |
    ⟨new,entry,found,placed,other,requests⟩ | ⟨new,asked⟩
  · rw [same]
    have drop : ∀ {v},v ∈ s.map ∨ v ∈ s.starting → v ∈ s.map ∨ v ∈ urls := by
      intro v there
      rcases there with inside | next
      · exact .inl inside
      · rcases kept [] v next with rfl | later
        · exact .inl known
        · exact .inr later
    refine ⟨{ sound with closed := ?_, enters := fun job member => drop (sound.enters job member) },{ fetched with }⟩
    intro u m ready spec asked
    obtain ⟨v,resolved,there⟩ := sound.closed u m ready spec asked
    exact ⟨v,resolved,drop there⟩
  · rw [placed]
    have later := sound.register (.inl new) (kept found) requests fun v inside => List.mem_append_left _ inside
    exact ⟨later,{ fetched.register new other with }⟩
  · rw [asked]
    have nothing : Starts v8 s.env url (.fetching : Entry Mod Err) [] := fun m is => by cases is
    have later := sound.register (.inl new) (kept []) nothing fun v inside => absurd inside List.not_mem_nil
    exact ⟨{ later with },{ fetched.ask new with }⟩

theorem Sound.loading (sound : Sound v8 s) (page : s.Page) (url : Url) : Sound v8 {s with
    after := some (some ⟨s.loads,url⟩), loads := s.loads + 1, starting := [url]} := by
  have none_ : s.after = none := Option.isNone_iff_eq_none.mp page.2
  refine ⟨?_,sound.rooted,?_,sound.scanned,fun _ busy => (nomatch busy),sound.right,?_⟩
  · intro u m ready spec asked
    obtain ⟨v,resolved,there⟩ := sound.closed u m ready spec asked
    rw [page.1] at there
    exact ⟨v,resolved,.inl (there.resolve_right List.not_mem_nil)⟩
  · intro job member
    rw [List.mem_singleton.mp member]
    exact .inr List.mem_cons_self
  · have before := sound.each
    rw [entering,none_] at before
    rw [List.range_succ]
    refine List.Perm.trans ?_ (before.append_right _)
    simp only [entering,List.map_append,List.map_cons,List.map_nil,List.append_nil,List.append_assoc]
    exact List.perm_append_comm.append_left _

theorem Sound.load (sound : Sound v8 s) (fetched : Fetched s) (page : s.Page) (url : Url) (source : Option Source) :
    Sound v8 (s.load v8 url source) ∧ Fetched (s.load v8 url source) := by
  have begun := sound.loading page url
  have back : ({s with after := some (some ⟨s.loads,url⟩), loads := s.loads + 1} : Loader Url Mod Err Env) =
      {s with after := some (some ⟨s.loads,url⟩), loads := s.loads + 1, starting := []} := by rw [← page.1]
  unfold Loader.load
  rw [back]
  cases source with
  | none => exact begun.start { fetched with } rfl
  | some source =>
    dsimp only
    split_ifs with known
    · have popped := (begun.start { fetched with } rfl).1
      rw [startFetch,if_pos known] at popped
      exact ⟨popped,{ fetched with }⟩
    · obtain ⟨entry,found,placed,other,requests⟩ := compile_cases v8
        {s with after := some (some ⟨s.loads,url⟩), loads := s.loads + 1, starting := []} url source
      rw [placed]
      refine ⟨begun.register (.inl known) (fun v there => .inl (List.mem_singleton.mp there)) requests
        fun v inside => List.mem_append_left _ inside,{ Fetched.register { fetched with } known other with }⟩

/-- A turn of the loop finds a job waiting, or settles it as its graph is. -/
theorem Sound.advanceJob (sound : Sound v8 s) (none_ : s.starting = []) {i : ℕ}
    (scanning : s.scanning = some i) : Sound v8 (s.advanceJob v8 i) := by
  obtain ⟨bound,waits⟩ := sound.scanned i scanning
  unfold Loader.advanceJob
  cases at_ : s.jobs[i]? with
  | none =>
    refine { sound with scanned := fun j is => (nomatch is), rests := fun _ _ job member => waits job ?_ }
    rwa [List.take_of_length_le (List.getElem?_eq_none_iff.mp at_)]
  | some job =>
    have inside : job ∈ s.jobs := List.mem_of_getElem? at_
    have known := sound.rooted job inside
    have reports := graphState_reports v8 s.env s.map job.root
    have settle : ∀ outcome,Settled v8 s.env s.map job.root outcome →
        Sound v8 {s with jobs := s.jobs.eraseIdx i, settled := s.settled ++ [(job,outcome)]} := by
      intro outcome settled
      refine ⟨sound.closed,fun other member => sound.rooted other (List.mem_of_mem_eraseIdx member),sound.enters,
        fun j is => ?_,fun rests _ => (nomatch scanning.symm.trans rests),?_,?_⟩
      · cases scanning.symm.trans is
        obtain ⟨short,-⟩ := List.getElem?_eq_some_iff.mp at_
        refine ⟨by rw [List.length_eraseIdx_of_lt short]; omega,fun other member => waits other ?_⟩
        rwa [List.take_eraseIdx_eq_take_of_le _ _ _ le_rfl] at member
      · intro e member
        rcases List.mem_append.mp member with old | new
        · exact sound.right e old
        · rw [List.mem_singleton.mp new]
          exact settled
      · have taken : (job :: s.jobs.eraseIdx i).Perm s.jobs := by
          obtain ⟨short,is⟩ := List.getElem?_eq_some_iff.mp at_
          exact is ▸ List.getElem_cons_eraseIdx_perm short
        refine List.Perm.trans (List.Perm.map _ ?_) sound.each
        refine List.Perm.trans ?_ ((taken.append_right s.entering).append_right (s.settled.map Prod.fst))
        rw [List.map_append,List.map_singleton,← List.append_assoc]
        exact List.perm_append_singleton job _
    dsimp only
    cases state : graphState v8 s.env s.map job.root with
    | pending =>
      rw [state] at reports
      have found : Waits v8 s.env s.map job.root := by
        obtain ⟨fine,u,reached,missing | awaited⟩ := reports
        · cases missing.symm.trans (Finmap.mem_iff.mp (sound.reached none_ known reached)).choose_spec
        · exact ⟨fun u => sound.reached none_ known,fine,u,reached,awaited⟩
      refine { sound with scanned := fun j is => ?_, rests := fun is => nomatch is }
      cases is
      obtain ⟨short,_⟩ := List.getElem?_eq_some_iff.mp at_
      refine ⟨short,fun other member => ?_⟩
      rw [List.take_add_one,at_] at member
      rcases List.mem_append.mp member with before | here
      · exact waits other before
      · rw [List.mem_singleton.mp here]
        exact found
    | failed e =>
      rw [state] at reports
      exact settle (.failed e) reports
    | ready =>
      rw [state] at reports
      obtain ⟨m,ready⟩ := reports job.root .refl
      dsimp only
      rw [ready]
      exact settle .loaded reports

/-- The page leaves alone what the requests of the modules that are there resolve to. -/
def Steady (v8 : Engine Url Source Mod Err Env) (s : Loader Url Mod Err Env) : Action Url Source Env → Prop
  | .change env => ∀ u m,s.map.lookup u = some (.ready m) → ∀ spec ∈ v8.requests m,
    v8.resolve env u spec = v8.resolve s.env u spec
  | _ => True

theorem Sound.change (sound : Sound v8 s) {env : Env} (steady : Steady v8 s (.change env : Action Url Source Env)) :
    Sound v8 {s with env} := by
  have evolves : Evolves v8 s.env s.map env s.map := by
    refine ⟨fun _ _ there _ => there,fun u m ready => List.filterMap_congr fun spec asked => ?_⟩
    rw [steady u m ready spec asked]
  refine ⟨fun u m ready spec asked => ?_,sound.rooted,sound.enters,fun i is => ?_,fun idle rests job member => ?_,
    fun e member => evolves.settled (sound.right e member),sound.each⟩
  · rw [steady u m ready spec asked]
    exact sound.closed u m ready spec asked
  · obtain ⟨bound,waits⟩ := sound.scanned i is
    exact ⟨bound,fun job member => evolves.waits (fun _ => id) (waits job member)⟩
  · exact evolves.waits (fun _ => id) (sound.rests idle rests job member)

theorem Sound.respond (sound : Sound v8 s) (fetched : Fetched s) (page : s.Page) (idle : s.scanning = none) (id : ℕ)
    (resp : Response Source) : Sound v8 (s.onFetchResponse v8 id resp) ∧ Fetched (s.onFetchResponse v8 id resp) := by
  have none_ : s.after = none := Option.isNone_iff_eq_none.mp page.2
  rcases respond_cases v8 s id resp with same | ⟨url,outstanding,entry,found,answered,other,requests⟩
  · rw [same]
    exact ⟨sound,fetched⟩
  · rw [answered]
    have each := sound.each
    rw [entering,none_] at each
    have begun : Sound v8 {s with after := some none} := { sound with
      enters := fun job member => nomatch member
      rests := fun _ busy => nomatch busy
      each }
    have later := begun.register (.inr ⟨fetched.fetching _ outstanding,idle,by simp⟩)
      (fun v there => .inr (List.mem_append_right found there)) requests fun v inside => List.mem_append_left _ inside
    exact ⟨{ later with },{ fetched.answer outstanding other with }⟩

theorem Sound.go (sound : Sound v8 s) (fetched : Fetched s) {s' : Loader Url Mod Err Env} (taken : s.go v8 = some s') :
    Sound v8 s' ∧ Fetched s' := by
  unfold Loader.go at taken
  split at taken
  case h_1 url urls starting =>
    cases taken
    exact sound.start fetched starting
  case h_2 scanning job starting after =>
    cases taken
    have each := sound.each
    have enters := sound.enters
    rw [entering,after] at each enters
    refine ⟨{ sound with
      rooted := fun other member => ?_
      enters := fun other member => nomatch member
      scanned := fun i is => ?_
      rests := fun _ busy => nomatch busy
      each := by simpa [entering] using each },{ fetched with }⟩
    · rcases List.mem_append.mp member with before | new
      · exact sound.rooted other before
      · rw [List.mem_singleton.mp new]
        have there := enters job List.mem_cons_self
        rw [starting] at there
        exact there.resolve_right List.not_mem_nil
    · obtain ⟨bound,waits⟩ := sound.scanned i is
      rw [List.take_append_of_le_length bound]
      exact ⟨bound.trans (by simp),waits⟩
  case h_3 starting after =>
    cases taken
    have each := sound.each
    rw [entering,after] at each
    refine ⟨{ sound with
      enters := fun other member => nomatch member
      scanned := fun i is => ?_
      rests := fun idle => ?_
      each },{ fetched with }⟩
    · cases scanning : s.scanning with
      | none =>
        rw [scanning] at is
        cases is
        exact ⟨Nat.zero_le _,fun job member => nomatch member⟩
      | some j => exact sound.scanned i (by rw [scanning] at is ⊢; exact is)
    · cases scanning : s.scanning <;> simp [scanning] at idle
  case h_4 i starting after scanning =>
    cases taken
    refine ⟨sound.advanceJob starting scanning,?_⟩
    unfold Loader.advanceJob
    split
    · exact { fetched with }
    · split <;> first | exact { fetched with } | (split <;> exact { fetched with })
  case h_5 => cases taken

theorem step_sound {a : Action Url Source Env} {s' : Loader Url Mod Err Env} (kept : Sound v8 s ∧ Fetched s)
    (steady : Steady v8 s a) (taken : s.step v8 a = some s') : Sound v8 s' ∧ Fetched s' := by
  obtain ⟨sound,fetched⟩ := kept
  cases a with
  | load url source =>
    obtain ⟨page,is⟩ := Option.ite_none_right_eq_some.mp taken
    cases is
    exact sound.load fetched page url source
  | respond id resp =>
    obtain ⟨⟨page,idle⟩,is⟩ := Option.ite_none_right_eq_some.mp taken
    cases is
    exact sound.respond fetched page (Option.isNone_iff_eq_none.mp idle) id resp
  | change env =>
    obtain ⟨page,is⟩ := Option.ite_none_right_eq_some.mp taken
    cases is
    exact ⟨sound.change steady,{ fetched with }⟩
  | go => exact sound.go fetched taken

namespace Sample

/-- A page whose inline module, number 0, names its request by the base URL. -/
def page : Engine ℕ (List String) (List String) String ℕ where
  compile _ source := .ok source
  requests := id
  resolve base url _ := .ok (if url = 0 then base else url)
  isBlob _ := false
  resolveBlob _ _ := .error "blob URL not found"
  isJsMime _ := true
  fetchError _ := "HTTP error"

abbrev Run := List (Action ℕ (List String) ℕ)

def opening : Run := [.load 0 (some ["./a.js"]),.go,.go,.go,.go,.go]

def answer : Run := [.respond 1 ⟨false,200,none,["./a.js"]⟩,.go,.go,.go,.go]

def known : ModuleMap ℕ (List String) String := Finmap.insert 1 .fetching (Finmap.insert 0 (.ready ["./a.js"]) ∅)

/-- The module is there and its request is fetched, from the URL 1, while the job waits. -/
def waiting : Loader ℕ (List String) String ℕ := ⟨1,known,[(1,1)],[⟨0,0⟩],2,[],none,none,[1],[],1⟩

end Sample

end Loader

end Sharko.Script.Modules
