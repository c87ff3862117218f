import Sharko.Netstack.ClientFetches

/-! Progress reports of the two backends of `NetClient`. Both check a table and call the
callback after that; `fetch_with_progress` promises that none comes after the fetch is
over. -/

namespace Sharko.Netstack.Client
open Library

@[simp] def Event.finishes (id : Nat) : Event → Bool
  | .done response => response.id == id
  | .aborted other => other == id
  | _ => false

def Finished (id : Nat) (trace : List Event) : Prop := ∃ e ∈ trace, e.finishes id = true

instance (id : Nat) (trace : List Event) : Decidable (Finished id trace) :=
  inferInstanceAs (Decidable (∃ e ∈ trace, _))

/-- No progress callback is called once its fetch is over; newest event first. -/
def Quiet : List Event → Prop
  | [] => True
  | e :: earlier => Quiet earlier ∧ ∀ report, e = .progress report → ¬ Finished report.id earlier

theorem finished_cons {id : Nat} {e : Event} {trace : List Event} :
    Finished id (e :: trace) ↔ e.finishes id = true ∨ Finished id trace := by
  simp [Finished]

theorem quiet_report {trace : List Event} (quiet : Quiet trace) {report : Progress} {overtaken : Bool}
    (exactly : overtaken = true ↔ Finished report.id trace) :
    Quiet (.progress report :: trace) ↔ overtaken = false := by
  have ended : (∀ r, Event.progress report = .progress r → ¬ Finished r.id trace) ↔
      ¬ Finished report.id trace := by
    simp
  unfold Quiet
  rw [ended,← exactly,Bool.not_eq_true]
  exact and_iff_right quiet

/-! ### The client of the network process -/

def Call.wired : Call → Bool
  | .fetch _ _ .tooLarge => true
  | .fetch _ _ .refused => true
  | .fetch _ _ (.sent _) => true
  | .fetch _ _ .unanswered => true
  | .fetch _ _ .returned => true
  | .socket _ => true
  | _ => false

def Call.returned : Call → Bool
  | .fetch _ _ .returned => true
  | .socket .returned => true
  | _ => false

namespace IpcShared
variable {s s' : IpcShared}

/-- Callers abort what they have an id of, and the network process answers what it was sent. -/
def Disciplined (s : IpcShared) : Action → Prop
  | .abort id => (s.calls id).returned ∨ Finished id s.trace
  | .read (some (.response response)) => response.id ∈ s.requested
  | .read (some (.progress report)) => report.id ∈ s.requested
  | _ => True

/-- A report is called before the completion callback of its fetch runs, and before an
abort of it returns, if its callback was cloned before. -/
def Prompt (s : IpcShared) : Action → Prop
  | .readerAdvances => ∀ report overtaken, s.reader = .report report overtaken → overtaken = false
  | _ => True

def Over (s : IpcShared) (id : Nat) : Prop :=
  (∃ response ∈ s.jobs, response.id = id) ∨ id ∈ s.aborting ∨ id ∈ s.leaving ∨ Finished id s.trace

structure Watched (s : IpcShared) : Prop where
  requested : ∀ id ∈ s.requested, ∃ url progress stage, s.calls id = .fetch url progress stage ∧
    (stage = .sent true ∨ stage = .returned ∨ (stage = .unanswered ∧ s.connected = false))
  response : ∀ response, s.reader = .response response →
    response.id ∈ s.requested ∧ response.id ∉ s.progress
  overIds : s.connected = true → ∀ id, Over s id →
    (s.calls id).wired = true ∧ (id ∈ s.requested → id ∉ s.progress)
  report : ∀ report overtaken, s.reader = .report report overtaken →
    (overtaken = true ↔ Finished report.id s.trace)

theorem answer_jobs {response r : NetResponse} (member : r ∈ (s.answer response).jobs) :
    r ∈ s.jobs ∨ r = response := by
  unfold answer at member
  split_ifs at member
  · exact (Multiset.mem_cons.mp member).symm
  · exact .inl member

theorem answer_tables (s : IpcShared) (response : NetResponse) :
    (s.answer response).progress = s.progress ∧ (s.answer response).requested = s.requested := by
  unfold answer
  split_ifs <;> exact ⟨rfl,rfl⟩

theorem Over.frame {next : IpcShared} {id other : Nat} (frame : FetchFrame s next id)
    (jobs : ∀ r ∈ next.jobs, r ∈ s.jobs ∨ r.id = id) (isOver' : Over next other) :
    Over s other ∨ other = id := by
  rcases isOver' with ⟨r,member,same⟩ | aborting | leaving | finished
  · rcases jobs r member with old | own
    · exact .inl (.inl ⟨r,old,same⟩)
    · exact .inr (same.symm.trans own)
  · rw [frame.aborting] at aborting
    exact .inl (.inr (.inl aborting))
  · rw [frame.leaving] at leaving
    exact .inl (.inr (.inr (.inl leaving)))
  · rw [frame.trace] at finished
    exact .inl (.inr (.inr (.inr finished)))

/-- A section of `fetch_inner` that treats its own id well keeps the invariant. -/
theorem Watched.call (ok : Watched s) {next : IpcShared} {id : Nat} {url : String} {progress : Bool}
    {stage : FetchStage} (frame : FetchFrame s next id) (jobs : ∀ r ∈ next.jobs, r ∈ s.jobs ∨ r.id = id)
    (progressOthers : ∀ other, other ≠ id → (other ∈ next.progress ↔ other ∈ s.progress))
    (requestedOthers : ∀ other, other ≠ id → (other ∈ next.requested ↔ other ∈ s.requested))
    (requested : id ∈ next.requested →
      stage = .sent true ∨ stage = .returned ∨ (stage = .unanswered ∧ s.connected = false))
    (response : ∀ r, s.reader = .response r → r.id = id → id ∈ next.requested ∧ id ∉ next.progress)
    (own : s.connected = true → Over next id →
      (Call.fetch url progress stage).wired = true ∧ (id ∈ next.requested → id ∉ next.progress)) :
    Watched {next with calls := Function.update s.calls id (.fetch url progress stage)} := by
  refine ⟨?_,?_,?_,?_⟩
  · intro other member
    by_cases same : other = id
    · subst same
      refine ⟨url,progress,stage,by simp,?_⟩
      simpa [frame.connected] using requested member
    · simp only [Function.update_of_ne same,frame.connected]
      exact ok.requested other ((requestedOthers other same).mp member)
  · intro r reading
    simp only [frame.reader] at reading
    by_cases same : r.id = id
    · rw [same]
      exact response r reading same
    · obtain ⟨sent,cleared⟩ := ok.response r reading
      exact ⟨(requestedOthers _ same).mpr sent,fun member => cleared ((progressOthers _ same).mp member)⟩
  · intro connected other isOver'
    simp only [frame.connected] at connected
    by_cases same : other = id
    · subst same
      simp only [Function.update_self]
      exact own connected isOver'
    · have before := (Over.frame frame jobs isOver').resolve_right same
      obtain ⟨wired,clear⟩ := ok.overIds connected other before
      simp only [Function.update_of_ne same]
      exact ⟨wired,fun sent member =>
        clear ((requestedOthers other same).mp sent) ((progressOthers other same).mp member)⟩
  · intro report overtaken reading
    simp only [frame.reader,frame.trace] at reading ⊢
    exact ok.report report overtaken reading

theorem Watched.unrequested (ok : Watched s) {id : Nat} {url : String} {progress : Bool} {stage : FetchStage}
    (call : s.calls id = .fetch url progress stage)
    (other : stage ≠ .sent true ∧ stage ≠ .returned ∧ stage ≠ .unanswered) : id ∉ s.requested := by
  intro member
  obtain ⟨url',progress',stage',call',at'⟩ := ok.requested id member
  rw [call] at call'
  cases call'
  rcases at' with sent | returned | ⟨unanswered,_⟩
  · exact other.1 sent
  · exact other.2.1 returned
  · exact other.2.2 unanswered

theorem Watched.notOver (ok : Watched s) (id : Nat) (unwired : (s.calls id).wired = false)
    (connected : s.connected = true) : ¬ Over s id := by
  intro isOver'
  have wired := (ok.overIds connected id isOver').1
  rw [unwired] at wired
  cases wired

theorem Watched.proceeds (ok : Watched s) {next : IpcShared} {id : Nat} {url : String} {progress : Bool}
    {stage stage' : FetchStage} (frame : FetchFrame s next id) (call : s.calls id = .fetch url progress stage)
    (unwired : (Call.fetch url progress stage).wired = false) (jobs : next.jobs = s.jobs)
    (unreported : next.progress = s.progress) (unsent : next.requested = s.requested) :
    Watched {next with calls := Function.update s.calls id (.fetch url progress stage')} := by
  have absent : id ∉ s.requested := by
    apply ok.unrequested call
    refine ⟨?_,?_,?_⟩ <;> intro same <;> rw [same] at unwired <;> cases unwired
  have fresh := ok.notOver id (by rw [call]; exact unwired)
  refine ok.call frame (fun r member => .inl (jobs ▸ member)) ?_ ?_ ?_ ?_ ?_
  · simp [unreported]
  · simp [unsent]
  · intro member
    exact absurd (unsent ▸ member) absent
  · intro r reading same
    exact absurd (same ▸ (ok.response r reading).1) absent
  · intro connected isOver'
    unfold Over at isOver'
    rw [jobs,frame.aborting,frame.leaving,frame.trace] at isOver'
    exact absurd isOver' (fresh connected)

theorem Watched.fetchInner (ok : Watched s) {next : IpcShared} {id : Nat} {url : String}
    {progress : Bool} {sent : Sent} {stage stage' : FetchStage} (call : s.calls id = .fetch url progress stage)
    (moved : s.fetchInner id url progress sent stage = some (next,stage')) :
    Watched {next with calls := Function.update s.calls id (.fetch url progress stage')} := by
  have frame := fetchInner_frame moved
  have noResponse : id ∉ s.requested → ∀ r, s.reader = .response r → r.id = id →
      id ∈ next.requested ∧ id ∉ next.progress := by
    intro unsent r reading same
    exact absurd (same ▸ (ok.response r reading).1) unsent
  have kept : ∀ r, s.reader = .response r → r.id = id → id ∈ s.requested ∧ id ∉ s.progress := by
    intro r reading same
    exact same ▸ ok.response r reading
  cases stage with
  | started =>
    have unsent := ok.unrequested call (by simp)
    simp only [IpcShared.fetchInner] at moved
    split_ifs at moved with online
    · cases moved
      exact ok.proceeds frame call rfl rfl rfl rfl
    · cases moved
      refine ok.call frame ?_ (fun _ _ => Iff.rfl) (fun _ _ => Iff.rfl)
        (fun member => absurd member unsent) (noResponse unsent)
        (fun connected _ => absurd connected online)
      intro r member
      rcases Multiset.mem_cons.mp member with rfl | old
      · exact .inr rfl
      · exact .inl old
  | connected =>
    cases moved
    exact ok.proceeds frame call rfl rfl rfl rfl
  | pending =>
    have unsent := ok.unrequested call (by simp)
    have fresh := ok.notOver id (by rw [call]; rfl)
    simp only [IpcShared.fetchInner] at moved
    cases moved
    cases progress with
    | false => exact ok.proceeds frame call rfl rfl rfl rfl
    | true =>
      refine ok.call frame (fun r member => .inl member) ?_ (fun _ _ => Iff.rfl)
        (fun member => absurd member unsent) (noResponse unsent)
        (fun connected isOver' => absurd isOver' (fresh connected))
      intro other different
      simp [different]
  | registered =>
    have unsent := ok.unrequested call (by simp)
    have fresh := ok.notOver id (by rw [call]; rfl)
    cases sent with
    | ok =>
      cases moved
      refine ok.call frame (fun r member => .inl member) (fun _ _ => Iff.rfl) ?_ (fun _ => .inl rfl)
        (noResponse unsent) (fun connected isOver' => absurd isOver' (fresh connected))
      intro other different
      simp [different]
    | tooLarge =>
      cases moved
      exact ok.proceeds frame call rfl rfl rfl rfl
    | failed =>
      cases moved
      exact ok.proceeds frame call rfl rfl rfl rfl
  | tooLarge =>
    have unsent := ok.unrequested call (by simp)
    cases moved
    refine ok.call frame (fun r member => .inl member) ?_ (fun _ _ => Iff.rfl)
      (fun member => absurd member unsent) (noResponse unsent)
      (fun _ _ => ⟨rfl,fun member => absurd member unsent⟩)
    intro other different
    simp [different]
  | refused =>
    have unsent := ok.unrequested call (by simp)
    cases moved
    obtain ⟨progress',requested'⟩ := answer_tables s (tooBigResponse id url)
    refine ok.call frame ?_ ?_ ?_ (fun _ => .inr (.inl rfl)) (noResponse unsent) ?_
    · intro r member
      rcases answer_jobs member with old | rfl
      · exact .inl old
      · exact .inr rfl
    · simp [progress']
    · simp [requested']
    · rw [requested']
      exact fun _ _ => ⟨rfl,fun member => absurd member unsent⟩
  | sent fine =>
    have before := ok.overIds
    simp only [IpcShared.fetchInner] at moved
    split_ifs at moved with answered
    · cases moved
      refine ok.call frame (fun r member => .inl member) (fun _ _ => Iff.rfl) (fun _ _ => Iff.rfl)
        (fun _ => .inr (.inl rfl)) kept ?_
      exact fun connected isOver' => ⟨rfl,(before connected id isOver').2⟩
    · cases moved
      refine ok.call frame (fun r member => .inl member) (fun _ _ => Iff.rfl) (fun _ _ => Iff.rfl)
        ?_ kept ?_
      · intro member
        cases fine with
        | true => exact .inr (.inr ⟨rfl,by simpa using answered⟩)
        | false => exact absurd member (ok.unrequested call (by simp))
      · exact fun connected isOver' => ⟨rfl,(before connected id isOver').2⟩
  | unanswered =>
    cases moved
    obtain ⟨progress',requested'⟩ := answer_tables s (disconnectedResponse id)
    refine ok.call frame ?_ ?_ ?_ (fun _ => .inr (.inl rfl)) ?_ ?_
    · intro r member
      rcases answer_jobs member with old | rfl
      · exact .inl old
      · exact .inr rfl
    · simp [progress']
    · simp [requested']
    · rw [progress',requested']
      exact kept
    · intro connected _
      refine ⟨rfl,?_⟩
      intro member
      rw [requested'] at member
      obtain ⟨url',progress₂,stage₂,call',at'⟩ := ok.requested id member
      rw [call] at call'
      cases call'
      simp [connected] at at'
  | returned => cases moved

theorem Watched.recalled (ok : Watched s) {id : Nat} {call : Call} (unsent : id ∉ s.requested)
    (wired : (s.calls id).wired = true → call.wired = true) (nextId : Nat) (sockets : Finset Nat)
    (told : Nat → List WebSocket.WsEvent) : Watched {s with
      nextId := nextId
      calls := Function.update s.calls id call
      sockets := sockets
      told := told} := by
  refine ⟨?_,ok.response,?_,ok.report⟩
  · intro other member
    have different : other ≠ id := by
      rintro rfl
      exact unsent member
    simp only [Function.update_of_ne different]
    exact ok.requested other member
  · intro connected other isOver'
    obtain ⟨before,clear⟩ := ok.overIds connected other isOver'
    refine ⟨?_,clear⟩
    by_cases same : other = id
    · subst same
      simpa using wired before
    · simpa [Function.update_of_ne same] using before

theorem returned_wired {call : Call} (returned : call.returned = true) : call.wired = true := by
  cases call with
  | none => cases returned
  | fetch url progress stage => cases stage <;> first | rfl | cases returned
  | socket stage => rfl

theorem Watched.abort (ok : Watched s) {id : Nat} (known : (s.calls id).returned ∨ Finished id s.trace) :
    Watched {s with progress := s.progress.erase id, aborting := id ::ₘ s.aborting} := by
  refine ⟨ok.requested,?_,?_,ok.report⟩
  · intro r reading
    obtain ⟨sent,cleared⟩ := ok.response r reading
    exact ⟨sent,fun member => cleared (Finset.mem_of_mem_erase member)⟩
  · intro connected other isOver'
    by_cases same : other = id
    · subst same
      refine ⟨?_,fun _ => Finset.notMem_erase _ _⟩
      rcases known with returned | finished
      · exact returned_wired returned
      · exact (ok.overIds connected other (.inr (.inr (.inr finished)))).1
    · have before : Over s other := by
        rcases isOver' with job | aborting | later
        · exact .inl job
        · exact .inr (.inl ((Multiset.mem_cons.mp aborting).resolve_left same))
        · exact .inr (.inr later)
      obtain ⟨wired,clear⟩ := ok.overIds connected other before
      exact ⟨wired,fun sent member => clear sent (Finset.mem_of_mem_erase member)⟩

theorem Watched.isOver (ok : Watched s) {next : IpcShared} (calls : next.calls = s.calls)
    (connected : next.connected = s.connected) (reader : next.reader = s.reader)
    (progress : next.progress = s.progress) (requested : next.requested = s.requested)
    (before : ∀ id, Over next id → Over s id)
    (finished : ∀ id, Finished id next.trace ↔ Finished id s.trace) : Watched next := by
  refine ⟨?_,?_,?_,?_⟩
  · rw [calls,connected,requested]
    exact ok.requested
  · rw [reader,progress,requested]
    exact ok.response
  · rw [calls,connected,progress,requested]
    exact fun online id isOver' => ok.overIds online id (before id isOver')
  · rw [reader]
    intro report overtaken reading
    rw [finished]
    exact ok.report report overtaken reading

theorem Watched.finish (ok : Watched s) (id : Nat) {next : IpcShared} (calls : next.calls = s.calls)
    (connected : next.connected = s.connected) (reader : next.reader = s.overtake id)
    (progress : next.progress = s.progress) (requested : next.requested = s.requested)
    (before : ∀ other, Over next other → Over s other)
    (finished : ∀ other, Finished other next.trace ↔ other = id ∨ Finished other s.trace) : Watched next := by
  refine ⟨?_,?_,?_,?_⟩
  · rw [calls,connected,requested]
    exact ok.requested
  · rw [reader,progress,requested]
    exact fun r reading => ok.response r (overtake_response reading)
  · rw [calls,connected,progress,requested]
    exact fun online other isOver' => ok.overIds online other (before other isOver')
  · rw [reader]
    intro report overtaken reading
    rw [finished]
    unfold overtake at reading
    cases was : s.reader with
    | report report' overtaken' =>
      rw [was] at reading
      cases reading
      have exactly := ok.report _ _ was
      rw [← exactly]
      cases overtaken' <;> simp
    | idle => rw [was] at reading; cases reading
    | response r => rw [was] at reading; cases reading
    | lost => rw [was] at reading; cases reading
    | progressCleared => rw [was] at reading; cases reading
    | socketsDrained => rw [was] at reading; cases reading
    | done => rw [was] at reading; cases reading

theorem Watched.onMessage (ok : Watched s) (idle : s.reader = .idle) (online : s.connected = true)
    {message : Option Message} (sent : s.Disciplined (.read message)) : Watched (s.onMessage message) := by
  have unreported : ∀ report overtaken, s.reader ≠ .report report overtaken := by
    intro report overtaken reading
    rw [idle] at reading
    cases reading
  cases message with
  | none =>
    refine ⟨?_,by simp [IpcShared.onMessage],by simp [IpcShared.onMessage],by simp [IpcShared.onMessage]⟩
    intro id member
    obtain ⟨url,progress,stage,call,at'⟩ := ok.requested id member
    exact ⟨url,progress,stage,call,at'.imp_right (Or.imp_right fun unanswered => ⟨unanswered.1,rfl⟩)⟩
  | some message =>
    cases message with
    | response response =>
      refine ⟨ok.requested,?_,?_,by simp [IpcShared.onMessage]⟩
      · intro r reading
        cases reading
        exact ⟨sent,Finset.notMem_erase _ _⟩
      · intro connected id isOver'
        obtain ⟨wired,clear⟩ := ok.overIds connected id isOver'
        exact ⟨wired,fun sent' member => clear sent' (Finset.mem_of_mem_erase member)⟩
    | progress report =>
      simp only [IpcShared.onMessage]
      split_ifs with inside
      · refine ⟨ok.requested,by simp,ok.overIds,?_⟩
        intro report' overtaken reading
        cases reading
        simp only [Bool.false_eq_true,false_iff]
        intro finished
        exact (ok.overIds online report.id (.inr (.inr (.inr finished)))).2 sent inside
      · exact ok
    | ws id event =>
      simp only [IpcShared.onMessage]
      split_ifs <;> cases event <;> exact ⟨ok.requested,ok.response,ok.overIds,ok.report⟩

theorem Watched.readerAdvances (ok : Watched s) (ids : Accounted s)
    (taken : s.readerAdvances = some s') : Watched s' := by
  have online := ids.connected
  cases reader : s.reader with
  | idle => simp [IpcShared.readerAdvances,reader] at taken
  | done => simp [IpcShared.readerAdvances,reader] at taken
  | response response =>
    simp only [IpcShared.readerAdvances,reader,Option.some.injEq] at taken
    subst taken
    obtain ⟨progress,requested⟩ := answer_tables s response
    obtain ⟨sent,cleared⟩ := ok.response response reader
    have fields : (s.answer response).calls = s.calls ∧ (s.answer response).connected = s.connected ∧
        (s.answer response).aborting = s.aborting ∧ (s.answer response).leaving = s.leaving ∧
        (s.answer response).trace = s.trace := by
      unfold IpcShared.answer
      split_ifs <;> exact ⟨rfl,rfl,rfl,rfl,rfl⟩
    obtain ⟨calls,link,aborting,leaving,trace⟩ := fields
    refine ⟨?_,by simp,?_,by simp⟩
    · simp only [requested,calls,link]
      exact ok.requested
    · intro connected id isOver'
      simp only [requested,progress,calls]
      by_cases same : id = response.id
      · subst same
        obtain ⟨url,progress',stage,call,at'⟩ := ok.requested _ sent
        refine ⟨?_,fun _ => cleared⟩
        rw [call]
        rcases at' with rfl | rfl | ⟨rfl,_⟩ <;> rfl
      · rw [link] at connected
        refine ok.overIds connected id ?_
        rcases isOver' with ⟨r,member,equal⟩ | more | more | more
        · rcases answer_jobs member with old | rfl
          · exact .inl ⟨r,old,equal⟩
          · exact absurd equal.symm same
        · exact .inr (.inl (aborting ▸ more))
        · exact .inr (.inr (.inl (leaving ▸ more)))
        · exact .inr (.inr (.inr (trace ▸ more)))
  | report report overtaken =>
    simp only [IpcShared.readerAdvances,reader,Option.some.injEq] at taken
    subst taken
    refine ⟨ok.requested,by simp,?_,by simp⟩
    intro connected id isOver'
    refine ok.overIds connected id ?_
    simpa [Over,finished_cons] using isOver'
  | lost | progressCleared | socketsDrained =>
    -- Nothing is asked of a fetch any more once the connection is lost.
    simp only [IpcShared.readerAdvances,reader,Option.some.injEq] at taken
    subst taken
    rw [reader] at online
    refine ⟨ok.requested,by simp,?_,by simp⟩
    intro connected
    exact absurd (online.symm.trans connected) (by simp [Reader.online])

theorem step_watched (ids : Accounted s) (ok : Watched s) {a : Action} (sent : s.Disciplined a)
    (taken : s.step a = some s') : Watched s' := by
  have unknown : s.nextId ∉ s.requested := by
    intro member
    obtain ⟨_,_,_,call,_⟩ := ok.requested _ member
    rw [ids.fresh _ (Nat.le_refl _)] at call
    cases call
  have unwired : (s.calls s.nextId).wired = false := by
    rw [ids.fresh _ (Nat.le_refl _)]
    rfl
  cases a with
  | fetch url progress =>
    cases taken
    exact ok.recalled unknown (fun wired => absurd (unwired.symm.trans wired) (by simp)) _ _ _
  | wsOpen =>
    cases taken
    exact ok.recalled unknown (fun _ => rfl) _ _ _
  | advance id sent =>
    rcases advance_cases taken with ⟨url,progress,stage,next,stage',call,moved,rfl⟩ | ⟨stage,next,stage',call,moved,rfl⟩
    · exact ok.fetchInner call moved
    · have unsent : id ∉ s.requested := by
        intro member
        obtain ⟨_,_,_,call',_⟩ := ok.requested _ member
        rw [call] at call'
        cases call'
      obtain ⟨sockets,told,rfl⟩ := wsOpen_frame moved
      exact ok.recalled unsent (fun _ => rfl) _ _ _
  | abort id =>
    cases taken
    exact ok.abort sent
  | abortPending id =>
    simp only [step] at taken
    split_ifs at taken with absent inside
    all_goals
      have moves (other : Nat) (isOver' : Over {s with aborting := s.aborting.erase id, leaving := id ::ₘ s.leaving} other) :
          Over s other := by
        rcases isOver' with job | aborting | leaving | finished
        · exact .inl job
        · exact .inr (.inl (Multiset.mem_of_mem_erase aborting))
        · rcases Multiset.mem_cons.mp leaving with rfl | old
          · exact .inr (.inl absent)
          · exact .inr (.inr (.inl old))
        · exact .inr (.inr (.inr finished))
    · cases taken
      refine ok.isOver rfl rfl rfl rfl rfl ?_ (by simp [finished_cons])
      intro other isOver'
      apply moves other
      simpa [Over,finished_cons] using isOver'
    · cases taken
      exact ok.isOver rfl rfl rfl rfl rfl moves fun _ => Iff.rfl
  | abortReturns id =>
    simp only [step] at taken
    split_ifs at taken with waiting
    cases taken
    refine ok.finish id rfl rfl rfl rfl rfl ?_ fun other =>
      finished_cons.trans (or_congr_left (beq_iff_eq.trans eq_comm))
    intro other isOver'
    rcases isOver' with job | aborting | leaving | finished
    · exact .inl job
    · exact .inr (.inl aborting)
    · exact .inr (.inr (.inl (Multiset.mem_of_mem_erase leaving)))
    · rcases finished_cons.mp finished with now | old
      · have same : id = other := eq_of_beq now
        rw [← same]
        exact .inr (.inr (.inl waiting))
      · exact .inr (.inr (.inr old))
  | wsClose id =>
    cases taken
    exact ok
  | read message =>
    simp only [step] at taken
    split_ifs at taken with idle
    cases taken
    refine ok.onMessage idle ?_ sent
    rw [ids.connected,idle]
    rfl
  | readerAdvances => exact ok.readerAdvances ids taken
  | run response =>
    simp only [step] at taken
    split_ifs at taken with waiting
    cases taken
    refine ok.finish response.id rfl rfl rfl rfl rfl ?_ fun other =>
      finished_cons.trans (or_congr_left (beq_iff_eq.trans eq_comm))
    intro other isOver'
    rcases isOver' with ⟨r,member,equal⟩ | aborting | leaving | finished
    · exact .inl ⟨r,Multiset.mem_of_mem_erase member,equal⟩
    · exact .inr (.inl aborting)
    · exact .inr (.inr (.inl leaving))
    · rcases finished_cons.mp finished with now | old
      · have same : response.id = other := eq_of_beq now
        exact .inl ⟨response,waiting,same⟩
      · exact .inr (.inr (.inr old))

theorem step_quiet (ok : Watched s) (quiet : Quiet s.trace) {a : Action} (taken : s.step a = some s') :
    Quiet s'.trace ↔ Prompt s a := by
  have same : s'.trace = s.trace → Quiet s'.trace := by
    intro equal
    rwa [equal]
  cases a with
  | fetch url progress =>
    cases taken
    exact iff_of_true quiet trivial
  | wsOpen =>
    cases taken
    exact iff_of_true quiet trivial
  | advance id sent =>
    refine iff_of_true (same ?_) trivial
    rcases advance_cases taken with ⟨url,progress,stage,next,stage',call,moved,rfl⟩ | ⟨stage,next,stage',call,moved,rfl⟩
    · exact (fetchInner_frame moved).trace
    · obtain ⟨sockets,told,rfl⟩ := wsOpen_frame moved
      rfl
  | abort id =>
    cases taken
    exact iff_of_true quiet trivial
  | abortPending id =>
    simp only [step] at taken
    split_ifs at taken
    · cases taken
      exact iff_of_true ⟨quiet,by simp⟩ trivial
    · cases taken
      exact iff_of_true quiet trivial
  | abortReturns id =>
    simp only [step] at taken
    split_ifs at taken
    cases taken
    exact iff_of_true ⟨quiet,by simp⟩ trivial
  | wsClose id =>
    cases taken
    exact iff_of_true quiet trivial
  | read message =>
    simp only [step] at taken
    split_ifs at taken
    cases taken
    refine iff_of_true (same ?_) trivial
    cases message with
    | none => rfl
    | some message =>
      cases message with
      | response response => rfl
      | progress report =>
        simp only [onMessage]
        split_ifs <;> rfl
      | ws id event =>
        simp only [onMessage]
        split_ifs <;> cases event <;> rfl
  | readerAdvances =>
    cases reader : s.reader with
    | report report overtaken =>
      simp only [step,readerAdvances,reader,Option.some.injEq] at taken
      subst taken
      apply (quiet_report quiet (ok.report report overtaken reader)).trans
      constructor
      · intro inTime report' overtaken' reading
        cases reader.symm.trans reading
        exact inTime
      · intro prompt
        exact prompt report overtaken reader
    | response response =>
      simp only [step,readerAdvances,reader,Option.some.injEq] at taken
      subst taken
      refine iff_of_true (same ?_) (by simp [Prompt,reader])
      unfold answer
      split_ifs <;> rfl
    | idle => simp [step,readerAdvances,reader] at taken
    | done => simp [step,readerAdvances,reader] at taken
    | _ =>
      simp only [step,readerAdvances,reader,Option.some.injEq] at taken
      subst taken
      exact iff_of_true quiet (by simp [Prompt,reader])
  | run response =>
    simp only [step] at taken
    split_ifs at taken
    cases taken
    exact iff_of_true ⟨quiet,by simp⟩ trivial

theorem new_watched : Watched new :=
  ⟨by simp [new],by simp [new],by simp [new,Over,Finished],by simp [new]⟩

end IpcShared

/-! ### The stack inside the process -/

/-- A report that found its id in `inflight`. `overtaken` notes that the completion callback
of the fetch has run, or an abort of it has returned, since. -/
structure Checked where
  report : Progress
  overtaken : Bool
deriving DecidableEq

structure InProcess where
  nextId : Nat
  inflight : Finset Nat
  running : Finset Nat
  reporting : Finset Nat
  checked : List Checked
  leaving : Multiset Nat
  jobs : Multiset NetResponse
  trace : List Event

inductive LocalAction where
  | fetch (progress : Bool)
  | report (report : Progress)
  | call (place : Nat)
  | finish (response : NetResponse)
  | run (response : NetResponse)
  | abort (id : Nat)
  | abortReturns (id : Nat)

namespace InProcess
variable {s s' : InProcess}

def new : InProcess := ⟨1,∅,∅,∅,[],0,0,[]⟩

def overtake (s : InProcess) (id : Nat) : List Checked :=
  s.checked.map fun c => {c with overtaken := c.overtaken || c.report.id == id}

def step (s : InProcess) : LocalAction → Option InProcess
  | .fetch progress => some {s with
      nextId := s.nextId + 1
      inflight := insert s.nextId s.inflight
      running := insert s.nextId s.running
      reporting := if progress then insert s.nextId s.reporting else s.reporting}
  | .report report =>
    if report.id ∉ s.reporting then none
    else if report.id ∈ s.inflight then some {s with checked := s.checked ++ [⟨report,false⟩]}
    else some s
  | .call place =>
    s.checked[place]?.map fun c =>
      {s with checked := s.checked.eraseIdx place, trace := .progress c.report :: s.trace}
  | .finish response =>
    if response.id ∉ s.running then none
    -- Not registered anymore = aborted: the callback is dropped.
    else if response.id ∉ s.inflight then some {s with running := s.running.erase response.id}
    else some {s with
      running := s.running.erase response.id
      inflight := s.inflight.erase response.id
      jobs := response ::ₘ s.jobs}
  | .run response =>
    if response ∉ s.jobs then none
    else some {s with
      jobs := s.jobs.erase response
      checked := s.overtake response.id
      trace := .done response :: s.trace}
  | .abort id => some {s with inflight := s.inflight.erase id, leaving := id ::ₘ s.leaving}
  | .abortReturns id =>
    if id ∉ s.leaving then none
    else some {s with
      leaving := s.leaving.erase id
      checked := s.overtake id
      trace := .aborted id :: s.trace}

/-- Callers abort ids that `fetch` has handed out. -/
def Disciplined (s : InProcess) : LocalAction → Prop
  | .abort id => id < s.nextId
  | _ => True

/-- As for the client of the network process. -/
def Prompt (s : InProcess) : LocalAction → Prop
  | .call place => ∀ c, s.checked[place]? = some c → c.overtaken = false
  | _ => True

def Over (s : InProcess) (id : Nat) : Prop :=
  (∃ response ∈ s.jobs, response.id = id) ∨ id ∈ s.leaving ∨ Finished id s.trace

structure Watched (s : InProcess) : Prop where
  inflight : ∀ id ∈ s.inflight, id < s.nextId
  overIds : ∀ id, Over s id → id ∉ s.inflight ∧ id < s.nextId
  checked : ∀ c ∈ s.checked, c.overtaken = true ↔ Finished c.report.id s.trace

theorem Watched.overtake (ok : Watched s) {id : Nat} {e : Event}
    (ends : ∀ other, e.finishes other = (id == other)) :
    ∀ c ∈ s.overtake id, c.overtaken = true ↔ Finished c.report.id (e :: s.trace) := by
  intro c member
  obtain ⟨c',member',rfl⟩ := List.mem_map.mp member
  rw [finished_cons,ends,← ok.checked c' member']
  simp only [Bool.or_eq_true,beq_iff_eq]
  exact or_comm.trans (or_congr_left eq_comm)

theorem step_watched (ok : Watched s) {a : LocalAction} (sent : s.Disciplined a)
    (taken : s.step a = some s') : Watched s' := by
  cases a with
  | fetch progress =>
    cases taken
    refine ⟨?_,?_,ok.checked⟩
    · intro id member
      rcases Finset.mem_insert.mp member with rfl | old
      · exact Nat.lt_succ_self _
      · exact Nat.lt_succ_of_lt (ok.inflight id old)
    · intro id isOver'
      obtain ⟨absent,below⟩ := ok.overIds id isOver'
      refine ⟨?_,Nat.lt_succ_of_lt below⟩
      intro member
      rcases Finset.mem_insert.mp member with rfl | old
      · exact absurd below (Nat.lt_irrefl _)
      · exact absent old
  | report report =>
    simp only [step] at taken
    split_ifs at taken with reporting inside
    · cases taken
      refine ⟨ok.inflight,ok.overIds,?_⟩
      intro c member
      rcases List.mem_append.mp member with old | new
      · exact ok.checked c old
      · rw [List.mem_singleton.mp new]
        simp only [Bool.false_eq_true,false_iff]
        exact fun finished => (ok.overIds _ (.inr (.inr finished))).1 inside
    · cases taken
      exact ok
  | call place =>
    obtain ⟨c,found,rfl⟩ := Option.map_eq_some_iff.mp taken
    refine ⟨ok.inflight,?_,?_⟩
    · intro id isOver'
      refine ok.overIds id ?_
      simpa [Over,finished_cons] using isOver'
    · intro c' member
      simpa [finished_cons] using ok.checked c' (List.eraseIdx_subset member)
  | finish response =>
    simp only [step] at taken
    split_ifs at taken with ended inside
    · cases taken
      refine ⟨fun id member => ok.inflight id (Finset.mem_of_mem_erase member),?_,ok.checked⟩
      intro id isOver'
      by_cases same : id = response.id
      · rw [same]
        exact ⟨Finset.notMem_erase _ _,ok.inflight _ inside⟩
      · have before : Over s id := by
          rcases isOver' with ⟨r,member,equal⟩ | later
          · rcases Multiset.mem_cons.mp member with rfl | old
            · exact absurd equal.symm same
            · exact .inl ⟨r,old,equal⟩
          · exact .inr later
        obtain ⟨absent,below⟩ := ok.overIds id before
        exact ⟨fun member => absent (Finset.mem_of_mem_erase member),below⟩
    · cases taken
      exact ⟨ok.inflight,ok.overIds,ok.checked⟩
  | run response =>
    simp only [step] at taken
    split_ifs at taken with waiting
    cases taken
    refine ⟨ok.inflight,?_,ok.overtake fun _ => rfl⟩
    intro id isOver'
    refine ok.overIds id ?_
    rcases isOver' with ⟨r,member,equal⟩ | leaving | finished
    · exact .inl ⟨r,Multiset.mem_of_mem_erase member,equal⟩
    · exact .inr (.inl leaving)
    · rcases finished_cons.mp finished with now | old
      · have same : response.id = id := eq_of_beq now
        exact .inl ⟨response,waiting,same⟩
      · exact .inr (.inr old)
  | abort id =>
    cases taken
    refine ⟨fun id member => ok.inflight id (Finset.mem_of_mem_erase member),?_,ok.checked⟩
    intro other isOver'
    by_cases same : other = id
    · rw [same]
      exact ⟨Finset.notMem_erase _ _,sent⟩
    · have before : Over s other := by
        rcases isOver' with job | leaving | finished
        · exact .inl job
        · exact .inr (.inl ((Multiset.mem_cons.mp leaving).resolve_left same))
        · exact .inr (.inr finished)
      obtain ⟨absent,below⟩ := ok.overIds other before
      exact ⟨fun member => absent (Finset.mem_of_mem_erase member),below⟩
  | abortReturns id =>
    simp only [step] at taken
    split_ifs at taken with waiting
    cases taken
    refine ⟨ok.inflight,?_,ok.overtake fun _ => rfl⟩
    intro other isOver'
    refine ok.overIds other ?_
    rcases isOver' with job | leaving | finished
    · exact .inl job
    · exact .inr (.inl (Multiset.mem_of_mem_erase leaving))
    · rcases finished_cons.mp finished with now | old
      · have same : id = other := eq_of_beq now
        rw [← same]
        exact .inr (.inl waiting)
      · exact .inr (.inr old)

theorem step_quiet (ok : Watched s) (quiet : Quiet s.trace) {a : LocalAction}
    (taken : s.step a = some s') : Quiet s'.trace ↔ Prompt s a := by
  cases a with
  | fetch progress =>
    cases taken
    exact iff_of_true quiet trivial
  | report report =>
    simp only [step] at taken
    split_ifs at taken <;> cases taken <;> exact iff_of_true quiet trivial
  | call place =>
    obtain ⟨c,found,rfl⟩ := Option.map_eq_some_iff.mp taken
    apply (quiet_report quiet (ok.checked c (List.mem_of_getElem? found))).trans
    constructor
    · intro inTime c' found'
      cases found.symm.trans found'
      exact inTime
    · intro prompt
      exact prompt c found
  | finish response =>
    simp only [step] at taken
    split_ifs at taken <;> cases taken <;> exact iff_of_true quiet trivial
  | run response =>
    simp only [step] at taken
    split_ifs at taken
    cases taken
    exact iff_of_true ⟨quiet,by simp⟩ trivial
  | abort id =>
    cases taken
    exact iff_of_true quiet trivial
  | abortReturns id =>
    simp only [step] at taken
    split_ifs at taken
    cases taken
    exact iff_of_true ⟨quiet,by simp⟩ trivial

theorem new_watched : Watched new :=
  ⟨by simp [new],by simp [new,Over,Finished],by simp [new]⟩

end InProcess

/-- On both backends no progress callback is called once its fetch is over, all along a
run exactly if nothing ends a fetch between the check and the call of one of its reports. -/
theorem progress_quiet_iff (actions : List Action) (local' : List LocalAction)
    (disciplined : Runs.Guarded IpcShared.step IpcShared.Disciplined .new actions)
    (disciplined' : Runs.Guarded InProcess.step InProcess.Disciplined .new local') :
    (Runs.Always IpcShared.step (fun s => Quiet s.trace) .new actions ↔
      Runs.Guarded IpcShared.step IpcShared.Prompt .new actions) ∧
    (Runs.Always InProcess.step (fun s => Quiet s.trace) .new local' ↔
      Runs.Guarded InProcess.step InProcess.Prompt .new local') := by
  constructor
  · have kept : ∀ (s : IpcShared) a s', s.Accounted ∧ s.Watched → Quiet s.trace → s.Disciplined a →
        s.step a = some s' → (s'.Accounted ∧ s'.Watched) ∧ (Quiet s'.trace ↔ s.Prompt a) := by
      rintro s a s' ⟨ids,ok⟩ quiet sent taken
      exact ⟨⟨IpcShared.step_accounted ids taken,IpcShared.step_watched ids ok sent taken⟩,
        IpcShared.step_quiet ok quiet taken⟩
    refine Runs.always_iff_guarded_assuming IpcShared.step kept ?_ actions .new
      ⟨IpcShared.new_accounted,IpcShared.new_watched⟩ trivial disciplined
    intro s a refused
    cases a with
    | readerAdvances =>
      intro report overtaken reader
      simp [IpcShared.step,IpcShared.readerAdvances,reader] at refused
    | _ => trivial
  · have kept : ∀ (s : InProcess) a s', s.Watched → Quiet s.trace → s.Disciplined a →
        s.step a = some s' → s'.Watched ∧ (Quiet s'.trace ↔ s.Prompt a) := by
      intro s a s' ok quiet sent taken
      exact ⟨InProcess.step_watched ok sent taken,InProcess.step_quiet ok quiet taken⟩
    refine Runs.always_iff_guarded_assuming InProcess.step kept ?_ local' .new
      InProcess.new_watched trivial disciplined'
    intro s a refused
    cases a with
    | call place =>
      intro c found
      simp [InProcess.step,found] at refused
    | _ => trivial

/-- A report is cloned, and its fetch aborted before the report is called. -/
def abortedReport : List Action :=
  [.fetch "http://a/" true,.advance 1 .ok,.advance 1 .ok,.advance 1 .ok,.advance 1 .ok,.advance 1 .ok,
   .read (some (.progress ⟨1,10,20,false⟩)),.abort 1,.abortPending 1,.abortReturns 1,.readerAdvances]

/-- An upload report finds its id, and the fetch completes before the report is called. -/
def completedReport : List LocalAction :=
  [.fetch true,.report ⟨1,10,20,true⟩,.finish ⟨1,200,"http://a/",none⟩,
   .run ⟨1,200,"http://a/",none⟩,.call 0]

instance (s : IpcShared) (a : Action) : Decidable (s.Disciplined a) := by
  unfold IpcShared.Disciplined
  split <;> infer_instance

instance (s : InProcess) (a : LocalAction) : Decidable (s.Disciplined a) := by
  unfold InProcess.Disciplined
  split <;> infer_instance

theorem progress_quiet_iff_overtaken : (Runs.Always IpcShared.step (fun s => Quiet s.trace) .new abortedReport ↔
      Runs.Guarded IpcShared.step IpcShared.Prompt .new abortedReport) ∧
    (Runs.Always InProcess.step (fun s => Quiet s.trace) .new completedReport ↔
      Runs.Guarded InProcess.step InProcess.Prompt .new completedReport) :=
  progress_quiet_iff abortedReport completedReport (by decide) (by decide)

theorem progress_after_end : ¬ Runs.Always IpcShared.step (fun s => Quiet s.trace) .new abortedReport ∧
    ¬ Runs.Always InProcess.step (fun s => Quiet s.trace) .new completedReport := by
  constructor
  · intro always
    have ran : (Runs.exec IpcShared.step .new abortedReport).map IpcShared.trace =
        some [.progress ⟨1,10,20,false⟩,.aborted 1,.removed 1] := by
      decide
    obtain ⟨final,reached,trace⟩ := Option.map_eq_some_iff.mp ran
    have quiet := Runs.always_final _ always reached
    simp only [trace] at quiet
    exact quiet.2 _ rfl ⟨_,List.mem_cons_self,rfl⟩
  · intro always
    have ran : (Runs.exec InProcess.step .new completedReport).map InProcess.trace =
        some [.progress ⟨1,10,20,true⟩,.done ⟨1,200,"http://a/",none⟩] := by
      decide
    obtain ⟨final,reached,trace⟩ := Option.map_eq_some_iff.mp ran
    have quiet := Runs.always_final _ always reached
    simp only [trace] at quiet
    exact quiet.2 _ rfl ⟨_,List.mem_cons_self,rfl⟩

end Sharko.Netstack.Client
